/-
Calls that are respelled where a test is asked for.

`Expr.RespelledTest` relates a predicate to the same one with some of its tests
written as calls on a class: the predicate itself, the sides of a connective, what
is negated or compared with a truth value, and the condition on the items of a
stored array. There a call on a class is taken for the call on its receiver, so
that both have the same filter (`keepsBelow`). In every other place it has none, or
the same (`refinesBelow`), and so has the selection of the fields to return
(`filter_respelled`).
-/
import DocQuery.Proofs.Filter.Spelling

namespace DocQuery

namespace Expr

/-- A known truth value. -/
def isTruthValue (e : Expr) : Bool := (e.known?.bind Literal.asBool?).isSome

/-- The ways to write that two expressions are equal, or that they are not. -/
inductive Equates : BinaryOp → (Expr → Expr → Expr) → Prop
  | equal : Equates .equal (.binary .equal)
  | notEqual : Equates .notEqual (.binary .notEqual)
  | method : Equates .equal fun l r => .call l "Equals" [r]
  | ordinal {c : Expr} (hc : c.known?.bind Literal.stringComparison? = some .ordinal) :
      Equates .equal fun l r => .call l "Equals" [r, c]
  | onClass {owner : String} (ho : owner = "String" ∨ owner = "Object") :
      Equates .equal fun l r => .staticCall owner "Equals" [l, r]
  | ordinalOnClass {c : Expr} (hc : c.known?.bind Literal.stringComparison? = some .ordinal) :
      Equates .equal fun l r => .staticCall "String" "Equals" [l, r, c]

/-- An expression, and the same one with some of the tests that it is made of written as calls on a
class. -/
inductive RespelledTest : Bool → Expr → Expr → Prop
  | refl (b : Bool) (e : Expr) : RespelledTest b e e
  /-- The test itself is respelled. -/
  | onClass {b : Bool} {t t' : Expr} {owner method : String} {args args' : List Expr}
      (ho : takesSource owner method = true)
      (h : RespelledTest b (.call t method args) (.call t' method args')) :
      RespelledTest b (.call t method args) (.staticCall owner method (t' :: args'))
  | staticCall {b : Bool} {t t' : Expr} {owner method : String} {args args' : List Expr}
      (ho : takesSource owner method = true)
      (h : RespelledTest b (.call t method args) (.call t' method args')) :
      RespelledTest b (.staticCall owner method (t :: args))
        (.staticCall owner method (t' :: args'))
  | quote {b : Bool} {e e' : Expr} (h : RespelledTest b e e') :
      RespelledTest b (.quote e) (.quote e')
  | convert {b : Bool} {e e' : Expr} (type : ValueType) (h : RespelledTest b e e') :
      RespelledTest b (.convert e type) (.convert e' type)
  | not {b : Bool} {e e' : Expr} (h : RespelledTest b e e') : RespelledTest b (.not e) (.not e')
  | connective {b : Bool} {op : BinaryOp} {l l' r r' : Expr} (hop : op.isComparison = false)
      (hl : RespelledTest b l l') (hr : RespelledTest b r r') :
      RespelledTest b (.binary op l r) (.binary op l' r')
  /-- A test is compared with a truth value. -/
  | equated {b : Bool} {op : BinaryOp} {write : Expr → Expr → Expr} {l l' r r' : Expr}
      (hw : Equates op write) (hl : RespelledTest b l l') (hr : RespelledTest b r r')
      (h : l.isTest = true ∧ r.isTruthValue = true ∨ l.isTruthValue = true ∧ r.isTest = true) :
      RespelledTest b (write l r) (write l' r')
  | lambda {b : Bool} {body body' : Expr} (params : List Param)
      (h : RespelledTest true body body') :
      RespelledTest b (.lambda params body) (.lambda params body')
  /-- The condition on the items of a stored array. -/
  | items {b : Bool} {source p p' : Expr} {method : String} (hm : method = "Any" ∨ method = "All")
      (hs : source.known? = none) (h : RespelledTest b p p') (hc : SameCollapse b method [p] [p']) :
      RespelledTest b (.call source method [p]) (.call source method [p'])

theorem SameCollapse.of_ne {b : Bool} {method : String} {args args' : List Expr}
    (h : method ≠ "Any") : SameCollapse b method args args' := fun _ hm => absurd hm h

namespace RespelledTest

variable {b : Bool} {e e' : Expr}

theorem respelled (h : RespelledTest b e e') : Respelled true b e e' := by
  induction h with
  | refl b e => exact .refl b e
  | onClass ho _ ih => cases ih with | call ht ha hc => exact .onClass ho ht ha hc
  | staticCall ho _ ih => cases ih with | call ht ha hc => exact .staticCall (.cons ht ha) hc
  | quote _ ih => exact .quote ih
  | convert type _ ih => exact .convert type ih
  | not _ ih => exact .not ih
  | connective _ _ _ ihl ihr => exact .binary _ ihl ihr
  | equated hw _ _ _ ihl ihr =>
    have hmethod : "Equals" ≠ "Any" := by decide
    cases hw with
    | equal | notEqual => exact .binary _ ihl ihr
    | method => exact .call ihl (.cons ihr .nil) (.of_ne hmethod)
    | ordinal => exact .call ihl (.cons ihr (.cons (.refl _ _) .nil)) (.of_ne hmethod)
    | onClass => exact .staticCall (.cons ihl (.cons ihr .nil)) (.of_ne hmethod)
    | ordinalOnClass =>
      exact .staticCall (.cons ihl (.cons ihr (.cons (.refl _ _) .nil))) (.of_ne hmethod)
  | lambda params _ ih => exact .lambda params ih
  | items _ _ _ hc ih => exact .call (.refl _ _) (.cons ih .nil) hc

/-- What is negated in the one is negated in the other. -/
theorem strip_not (h : RespelledTest b e e') {inner : Expr} (hi : e.strip = .not inner) :
    ∃ inner', e'.strip = .not inner' ∧ RespelledTest b inner inner' := by
  induction h with
  | refl b e => exact ⟨inner, hi, .refl b inner⟩
  | quote _ ih => exact (ih hi :)
  | convert _ _ ih => exact (ih hi :)
  | not h _ =>
    cases hi
    exact ⟨_, rfl, h⟩
  | equated hw => cases hw <;> cases hi
  | onClass | staticCall | connective | lambda | items => cases hi

theorem asUnaryLambda? (h : RespelledTest b e e') {p : Param} {body : Expr}
    (hl : e.asUnaryLambda? = some (p, body)) :
    ∃ body', e'.asUnaryLambda? = some (p, body') ∧ RespelledTest true body body' := by
  induction h with
  | refl b e => exact ⟨body, hl, .refl true body⟩
  | quote _ ih => exact (ih hl :)
  | lambda params h _ =>
    rcases params with _ | ⟨q, _ | ⟨q', rest⟩⟩
    · cases hl
    · cases hl
      exact ⟨_, rfl, h⟩
    · cases hl
  | equated hw => cases hw <;> cases hl
  | onClass | staticCall | convert | not | connective | items => cases hl

end RespelledTest
end Expr

namespace Mapping

open DocQuery.Filter DocQuery.Expr

variable {m : Mapping} {b : Bool} {e e' l l' r r' : Expr} {s : Scope}

/-- However it is written that two expressions are equal, they are compared. -/
theorem filterOf_equates {op : BinaryOp} {write : Expr → Expr → Expr} (hw : Equates op write)
    (l r : Expr) (s : Scope) :
    m.filterOf (write l r) s = m.comparison m.filterOf (write l r) op l r s := by
  rw [filterOf_eq]
  cases hw with
  | equal | notEqual | method => rfl
  | ordinal hc => simp only [filterNode, callFilter, stringEquality, hc, if_true]
  | onClass ho =>
    rcases ho with rfl | rfl <;> rfl
  | ordinalOnClass hc =>
    change m.stringEquality m.filterOf _ l r _ s = _
    simp only [stringEquality, hc]

/-- The side that is a test and the truth value that it is compared with. -/
theorem comparisonOf?_truthValue {op : BinaryOp} (hop : op = .equal ∨ op = .notEqual)
    (hl : RespelledTest b l l') (hr : RespelledTest b r r')
    (h : l.isTest = true ∧ r.isTruthValue = true ∨ l.isTruthValue = true ∧ r.isTest = true) :
    ∃ x x' v expected, Comparison.of? op l r = some ⟨op, x, v⟩ ∧
      Comparison.of? op l' r' = some ⟨op, x', v⟩ ∧ v.asBool? = some expected ∧ x.isTest = true ∧
      RespelledTest b x x' ∧ (x' = l' ∨ x' = r') := by
  have hflip : op.flip = op := by rcases hop with rfl | rfl <;> rfl
  unfold Comparison.of?
  rw [← hl.respelled.known?_eq, ← hr.respelled.known?_eq]
  rcases h with ⟨htest, htruth⟩ | ⟨htruth, htest⟩
  · obtain ⟨expected, hexpected⟩ := Option.isSome_iff_exists.1 htruth
    obtain ⟨v, hv, hexpected⟩ := Option.bind_eq_some_iff.1 hexpected
    rw [known?_of_isTest htest, hv]
    exact ⟨l, l', v, expected, rfl, rfl, hexpected, htest, hl, .inl rfl⟩
  · obtain ⟨expected, hexpected⟩ := Option.isSome_iff_exists.1 htruth
    obtain ⟨v, hv, hexpected⟩ := Option.bind_eq_some_iff.1 hexpected
    rw [known?_of_isTest htest, hv]
    exact ⟨r, r', v, expected, by rw [hflip], by rw [hflip], hexpected, htest, hr, .inr rfl⟩

theorem negation_of_ne {sub : Expr → Scope → Result Document} {node : Expr}
    (h : ∀ inner, e.strip ≠ .not inner) :
    m.negation sub node e s =
      if (m.schema.typeOf e).isInteger then .error (.unsupported node)
      else complement <$> sub e s := by
  unfold negation
  split
  · rename_i inner hinner
    exact absurd hinner (h inner)
  · rfl

/-- Expressions keep their filters when their tests are respelled, the respelled ones being smaller
than `n`. -/
def KeepsBelow (m : Mapping) (n : Nat) : Prop :=
  ∀ {b : Bool} {e e' : Expr} {s : Scope}, e'.size < n → RespelledTest b e e' →
    (s.inElemMatch = true → b = true) → Refines (m.filterOf e' s) (m.filterOf e s)

section Test

variable {n : Nat} (hsub : m.KeepsBelow n) (hb : s.inElemMatch = true → b = true)
include hsub hb

theorem keeps_not (h : RespelledTest b e e') (hn : e'.size < n) :
    Refines (m.filterOf (.not e') s) (m.filterOf (.not e) s) := by
  rw [filterOf_eq m (.not _), filterOf_eq m (.not _)]
  simp only [filterNode]
  by_cases hnot : ∃ inner, e.strip = .not inner
  · obtain ⟨inner, hinner⟩ := hnot
    obtain ⟨inner', hinner', h⟩ := h.strip_not hinner
    have hsize := e'.size_strip_le
    rw [hinner'] at hsize
    simp only [Expr.size] at hsize
    simp only [negation, hinner, hinner']
    exact hsub (by omega) h hb
  · have hne : ∀ inner, e.strip ≠ .not inner := fun inner hinner => hnot ⟨inner, hinner⟩
    have hne' : ∀ inner, e'.strip ≠ .not inner := by
      intro inner hinner
      have hs := h.respelled.strip
      rw [hinner] at hs
      cases hs' : e.strip <;> rw [hs'] at hs <;> cases hs
      exact hne _ hs'
    rw [negation_of_ne hne, negation_of_ne hne', h.respelled.typeOf_eq]
    split
    · exact .of_error
    · exact (hsub hn h hb).map complement

theorem keeps_equated {op : BinaryOp} {write : Expr → Expr → Expr} (hw : Equates op write)
    (hl : RespelledTest b l l') (hr : RespelledTest b r r')
    (h : l.isTest = true ∧ r.isTruthValue = true ∨ l.isTruthValue = true ∧ r.isTest = true)
    (hln : l'.size < n) (hrn : r'.size < n) :
    Refines (m.filterOf (write l' r') s) (m.filterOf (write l r) s) := by
  have hop : op = .equal ∨ op = .notEqual := by cases hw <;> simp
  obtain ⟨x, x', v, expected, hof, hof', hv, htest, hx, hside⟩ :=
    comparisonOf?_truthValue hop hl hr h
  have hxn : x'.size < n := by rcases hside with rfl | rfl <;> assumption
  have htest' : x'.isTest = true := hx.respelled.isTest_eq ▸ htest
  rw [filterOf_equates hw, filterOf_equates hw]
  intro d hd
  obtain ⟨filter, hfilter, hd⟩ := (comparison_eq_ok _ hof hv hop htest).1 hd
  exact (comparison_eq_ok _ hof' hv hop htest').2 ⟨filter, hsub hxn hx hb filter hfilter, hd⟩

theorem keeps_items {source p p' : Expr} {method : String} (hm : method = "Any" ∨ method = "All")
    (hs : source.known? = none) (h : RespelledTest b p p') (hc : SameCollapse b method [p] [p'])
    (hpn : p'.size < n) :
    Refines (m.filterOf (.call source method [p']) s) (m.filterOf (.call source method [p]) s) := by
  rw [filterOf_eq m (.call _ _ _), filterOf_eq m (.call _ _ _)]
  cases hl : p.asUnaryLambda? with
  | none =>
    rcases hm with rfl | rfl
    · simp only [filterNode, callFilter, anyItem, hl]
      exact .of_error
    · simp only [filterNode, callFilter, allItems, hl]
      exact .of_error
  | some lambda =>
    obtain ⟨param, body⟩ := lambda
    obtain ⟨body', hl', hbody⟩ := h.asUnaryLambda? hl
    have hfilter : ∀ s, Refines (m.filterOf body' s) (m.filterOf body s) := fun _ =>
      hsub (Nat.lt_trans (Expr.size_lt_of_asUnaryLambda? hl') hpn) hbody fun _ => rfl
    rcases hm with rfl | rfl
    · have hcollapse : s.inElemMatch = true → collapsible body' = collapsible body := by
        intro hin
        simpa [itemsCollapse, hl, hl'] using (hc (hb hin) rfl).symm
      simp only [filterNode, callFilter, anyItem, hl, hl', hs]
      split
      · exact (refines_typeSelection _ _ (.refl b _) (.refl b _)).bind fun selection =>
          refines_anyStored param hfilter _ _ selection (.refl _) hcollapse
      · exact refines_anyStored param hfilter _ _ none (.refl _) hcollapse
    · simp only [filterNode, callFilter, allItems, hl, hl', hs]
      refine (Refines.refl _).bind fun stored => ?_
      split
      · exact .of_error
      · exact (hfilter _).bind fun filter => (refines_itemCondition _ _ _).bind fun _ => .refl _

end Test

/-- An expression keeps its filter when its tests are respelled. The induction is on the size of the
respelled one, as for `refinesBelow`. -/
theorem keepsBelow (m : Mapping) (n : Nat) : m.KeepsBelow n := by
  induction n with
  | zero =>
    intro b e e' s hn
    omega
  | succ n ih =>
    intro b e e' s hn h hb
    cases h with
    | refl => exact .refl _
    | onClass ho h =>
      rw [filterOf_staticCall ho]
      refine ih ?_ h hb
      simp only [Expr.size, Expr.sizes] at hn ⊢
      omega
    | staticCall ho h =>
      rw [filterOf_staticCall ho, filterOf_staticCall ho]
      refine ih ?_ h hb
      simp only [Expr.size, Expr.sizes] at hn ⊢
      omega
    | quote h =>
      simp only [Expr.size] at hn
      rw [filterOf_eq m (.quote _), filterOf_eq m (.quote _)]
      exact ih (by omega) h hb
    | convert type h =>
      simp only [Expr.size] at hn
      rw [filterOf_eq m (.convert _ _), filterOf_eq m (.convert _ _)]
      exact ih (by omega) h hb
    | not h =>
      simp only [Expr.size] at hn
      exact keeps_not ih hb h (by omega)
    | connective hop hl hr =>
      simp only [Expr.size] at hn
      exact refines_binary (hl.respelled.typeOf_eq _).symm (ih (by omega) hl hb)
        (ih (by omega) hr hb) fun hcompare => absurd hcompare (by simp [hop])
    | @equated _ _ write _ l' _ r' hw hl hr ht =>
      have hsize : l'.size < (write l' r').size ∧ r'.size < (write l' r').size := by
        cases hw <;> simp only [Expr.size, Expr.sizes] <;> omega
      exact keeps_equated ih hb hw hl hr ht (by omega) (by omega)
    | lambda => exact .of_error
    | items hm hs h hc =>
      simp only [Expr.size, Expr.sizes] at hn
      exact keeps_items ih hb hm hs h hc (by omega)

/-! ## Predicates and selectors -/

theorem filter_of_asUnaryLambda? {predicate : Expr} {p : Param}
    (h : predicate.asUnaryLambda? = some (p, e)) :
    m.filter predicate = m.filter (.lambda [p] e) := by
  unfold filter
  rw [h]
  rfl

theorem refines_filter {predicate predicate' : Expr} {p : Param}
    (hp : predicate.asUnaryLambda? = some (p, e)) (hp' : predicate'.asUnaryLambda? = some (p, e'))
    (hcheck : (Scope.root p.name).check e' = .ok () → (Scope.root p.name).check e = .ok ())
    (h : Refines (m.filterOf e (.root p.name)) (m.filterOf e' (.root p.name))) :
    Refines (m.filter predicate) (m.filter predicate') := by
  intro d hd
  rw [filter_of_asUnaryLambda? hp', filter_eq_ok] at hd
  rw [filter_of_asUnaryLambda? hp, filter_eq_ok]
  exact ⟨hcheck hd.1, h d hd.2⟩

/-- **Calls on a class.** Some calls on a receiver are written as calls on a class, none of them one
on which it depends whether a condition on items is written with a longer path. If the predicate
still translates, it translates as before; and it does if only tests are respelled. A selector with
such a call, wherever that stands, is not taken for stored fields. -/
theorem filter_respelled (m : Mapping) (lambda lambda' : Expr) {p : Param} {e e' : Expr}
    (hl : lambda.asUnaryLambda? = some (p, e)) (hl' : lambda'.asUnaryLambda? = some (p, e')) :
    (Respelled true false e e' → ∀ d, m.filter lambda' = .ok d → m.filter lambda = .ok d) ∧
    (RespelledTest false e e' → ∀ d, m.filter lambda = .ok d ↔ m.filter lambda' = .ok d) ∧
    (Respelled false false e e' → e ≠ e' → ∀ i, m.inclusion? lambda' ≠ .ok (some i)) := by
  have hroot : (Scope.root p.name).inElemMatch = true → false = true := fun h => h
  have hrefines (h : Respelled true false e e') : Refines (m.filter lambda) (m.filter lambda') :=
    refines_filter hl hl' (h.check_iff _).2 (refinesBelow m _ (Nat.lt_succ_self _) h hroot)
  have hkeeps (h : RespelledTest false e e') : Refines (m.filter lambda') (m.filter lambda) :=
    refines_filter hl' hl (h.respelled.check_iff _).1 (keepsBelow m _ (Nat.lt_succ_self _) h hroot)
  refine ⟨hrefines, fun h d => ⟨hkeeps h d, hrefines h.respelled d⟩, fun h hne i hi => ?_⟩
  exact hne (m.eq_of_inclusion? hl' h hi)

/-- Folders in folders, and the sizes of what else they hold. -/
def folderMapping : Mapping :=
  { schema := { documents := [
      { name := "Folder", members := [⟨"Name", "name", .string, .natural⟩,
        ⟨"Sizes", "sizes", .array .int32, .natural⟩,
        ⟨"Folders", "folders", .array (.document "Folder"), .natural⟩] }] } }

/-- `x.M` for a folder `x`. -/
def ofFolder (x name : String) : Expr := .member (.param ⟨x, .document "Folder"⟩) name

/-- `x => body` for a folder `x`. -/
def fromFolder (x : String) (body : Expr) : Expr := .lambda [⟨x, .document "Folder"⟩] body

/-- A call of a sequence method, on its receiver or on a class. -/
def sequenceCall (onClass : Bool) (source : Expr) (method : String) (args : List Expr) : Expr :=
  if onClass then .staticCall "Enumerable" method (source :: args) else .call source method args

/-- `x => !x.Folders.Any(f => f.Sizes.Any() == false)`. -/
def sizedFolders (onClass : Bool) : Expr :=
  fromFolder "x" (.not (sequenceCall onClass (ofFolder "x" "Folders") "Any"
    [fromFolder "f" (.binary .equal (sequenceCall onClass (ofFolder "f" "Sizes") "Any" [])
      (.literal ⟨.bool false, .boolean⟩))]))

/-- `x => x.Folders.Select(f => f.Name)`. -/
def folderNames (onClass : Bool) : Expr :=
  fromFolder "x" (sequenceCall onClass (ofFolder "x" "Folders") "Select"
    [fromFolder "f" (ofFolder "f" "Name")])

/-- Tests are respelled in a condition on items, in what is negated and in what is compared with a
truth value. -/
theorem filter_respelled_sizedFolders :
    (∃ d, folderMapping.filter (sizedFolders false) = .ok d ∧
      folderMapping.filter (sizedFolders true) = .ok d) ∧
    ∀ i, folderMapping.inclusion? (folderNames true) ≠ .ok (some i) := by
  have hd : folderMapping.filter (sizedFolders false) = .ok [("folders", .single "$not"
      (.single "$elemMatch" (.single "$nor" (.array [.single "sizes"
        (.document [("$ne", .null), ("$not", .single "$size" (.int32 0))])]))))] := by
    with_unfolding_all rfl
  have htests :=
    (filter_respelled folderMapping (sizedFolders false) (sizedFolders true) rfl rfl).2.1
  have hnames :=
    (filter_respelled folderMapping (folderNames false) (folderNames true) rfl rfl).2.2
  refine ⟨⟨_, hd, (htests ?_ _).1 hd⟩, hnames ?_ ?_⟩
  · refine .not (.onClass rfl (.items (.inl rfl) rfl (.lambda _ ?_) fun h => nomatch h))
    exact .equated .equal (.onClass rfl (.refl _ _)) (.refl _ _) (.inl ⟨rfl, rfl⟩)
  · exact .onClass rfl (.refl _ _) (.cons (.refl _ _) .nil) fun h => nomatch h
  · intro h
    cases h

/-- `x => x.Sizes.Count() > 3`. -/
def manySizes (onClass : Bool) : Expr :=
  fromFolder "x" (.binary .greater (sequenceCall onClass (ofFolder "x" "Sizes") "Count" [])
    (.literal ⟨.int32 3, .int32⟩))

/-- `x => x.Folders.Any(f => f.Folders.Any(g => g.Folders.Any(h => h.Name == "a")))`, the last call
in either spelling. -/
def deepFolder (onClass : Bool) : Expr :=
  fromFolder "x" (.call (ofFolder "x" "Folders") "Any" [fromFolder "f"
    (.call (ofFolder "f" "Folders") "Any" [fromFolder "g"
      (sequenceCall onClass (ofFolder "g" "Folders") "Any" [fromFolder "h"
        (.binary .equal (ofFolder "h" "Name") (.literal ⟨.string "a", .string⟩))])])])

/-- A count that is compared, a condition inside two others and a selection of names do not
translate as they do on their receivers. -/
theorem filter_onClass_differs :
    folderMapping.filter (manySizes false) = .ok [("sizes.3", .single "$exists" (.bool true))] ∧
    (∀ d, folderMapping.filter (manySizes true) ≠ .ok d) ∧
    folderMapping.filter (deepFolder false) = .ok [("folders", .single "$elemMatch"
      (.single "folders.folders.name" (.string "a")))] ∧
    folderMapping.filter (deepFolder true) = .ok [("folders", .single "$elemMatch"
      (.single "folders" (.single "$elemMatch" (.single "folders.name" (.string "a")))))] ∧
    (∃ i, folderMapping.inclusion? (folderNames false) = .ok (some i)) ∧
    folderMapping.inclusion? (folderNames true) = .ok none := by
  refine ⟨?_, ?_, ?_, ?_, ⟨_, rfl⟩, rfl⟩
  · with_unfolding_all rfl
  · intro d hd
    cases hd
  · with_unfolding_all rfl
  · with_unfolding_all rfl

end Mapping
end DocQuery
