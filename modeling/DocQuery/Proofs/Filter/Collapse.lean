/-
An "any" inside an "any", written with a longer path.

The condition `sub.Any(s => test)` on the items of an array is written as the
test of the field below `sub` if it tests a single field. Read by the database,
the filter asks for an item `g` of the outer array, and then:

* if the test is not one of opposite operators, for an item of `g.sub` that passes
  it, which is what the predicate says;
* if it is one of `$ne`, `$nin`, `$not` or `{$exists: false}` only, that every item
  of `g.sub` passes it.

So the filter means what the predicate says exactly if the test is of the first
kind (`accepts_nestedAny`).
-/
import DocQuery.Proofs.Filter.Connectives
import DocQuery.Proofs.Filter.Relocation
import DocQuery.Proofs.Filter.Server
import DocQuery.Proofs.Scope.Position

namespace DocQuery

open DocQuery.Filter

/-! ## Scopes with one parameter -/

namespace Scope

variable {f : Frame} {p : String} {b : Binding}

theorem resolve_push (hf : f.bindings = [(p, b)]) (s : Scope) (node : Expr) :
    (s.push f).resolve p node = .ok b := by
  simp [resolve, classify, push, Frame.binding?, hf]

theorem resolve_push_of_ne (hf : f.bindings = [(p, b)]) (s : Scope) {q : String} (hq : q ≠ p)
    (node : Expr) : ∃ e, (s.push f).resolve q node = .error e := by
  have hnone : f.binding? q = none := by simp [Frame.binding?, hf, Ne.symm hq]
  simp only [resolve, classify, push, hnone]
  cases s.frames.any fun g => (g.binding? q).isSome <;> exact ⟨_, rfl⟩

end Scope

namespace Mapping

variable {m : Mapping}

/-- The place that is read below the only parameter of the innermost frame. -/
theorem target?_push {f : Frame} {p : String} {base : List String}
    (hf : f.bindings = [(p, .path base)]) (s : Scope) {e : Expr} {place : FieldPath}
    (he : m.schema.fieldPath? e = .ok (some place)) (hp : place.param = p) :
    m.target? e (s.push f) =
      .ok (some ⟨base ++ place.path, place.type, place.representation⟩) := by
  unfold target?
  rw [he]
  subst hp
  change (s.push f).resolve place.param e >>= _ = _
  rw [Scope.resolve_push hf]
  rfl

theorem target?_push_of_ne {f : Frame} {p : String} {b : Binding} (hf : f.bindings = [(p, b)])
    (s : Scope) {e : Expr} {place : FieldPath}
    (he : m.schema.fieldPath? e = .ok (some place)) (hp : place.param ≠ p) :
    ∃ err, m.target? e (s.push f) = .error err := by
  obtain ⟨err, herr⟩ := Scope.resolve_push_of_ne hf s hp e
  refine ⟨err, ?_⟩
  unfold target?
  rw [he]
  change (s.push f).resolve place.param e >>= _ = _
  rw [herr]
  rfl

/-- A parameter that stands for the tested document, and one that stands for what is below a
path. -/
theorem readsBelow_push (hm : m.IsPlain) {f f' : Frame} {p : String} {base : List String}
    (hf : f.bindings = [(p, .root)]) (hf' : f'.bindings = [(p, .path base)]) (s s' : Scope) :
    m.ReadsBelow base (s.push f) (s'.push f') := by
  intro e he
  cases hplace : m.schema.fieldPath? e with
  | error err =>
    unfold target?
    rw [hplace]
    exact .error
  | ok o =>
    cases o with
    | none =>
      unfold target?
      rw [hplace]
      exact .ok ⟨rfl, nofun⟩
    | some place =>
      have hpath := (Schema.plain_fieldPath? hm e he).of_ok hplace place rfl
      by_cases hp : place.param = p
      · rw [target?_push hf s hplace hp, target?_push hf' s' hplace hp]
        refine .ok ⟨rfl, ?_⟩
        rintro t ⟨⟩
        exact hpath
      · obtain ⟨err, herr⟩ := target?_push_of_ne hf s hplace hp
        obtain ⟨err', herr'⟩ := target?_push_of_ne hf' s' hplace hp
        rw [herr, herr']
        exact .error

/-! ## The emitted filter -/

/-- The frame of a condition on array items. -/
def itemFrame (p : Param) (b : Binding) : Frame := { Frame.of p.name b with elemMatch := true }

theorem filterOf_any (m : Mapping) (o : Expr) (name : String) (p : Param) (body : Expr)
    (s : Scope) :
    m.filterOf (.call (.member o name) "Any" [.lambda [p] body]) s =
      m.anyStored m.filterOf (.call (.member o name) "Any" [.lambda [p] body]) (.member o name)
        none p body s := by
  rw [filterOf_eq]
  rfl

theorem target_eq_ok {e : Expr} {s : Scope} {t : Target} (h : m.target e s = .ok t) :
    m.target? e s = .ok (some t) := by
  obtain ⟨o, ho, hsome⟩ := bind_eq_ok.1 h
  cases o with
  | none => cases hsome
  | some t' => cases hsome; exact ho

/-- A condition on the items of an array that stays under `$elemMatch`. -/
theorem anyStored_of_not_collapsed {node e body : Expr} {p : Param} {s : Scope} {d : Document}
    (h : m.anyStored m.filterOf node e none p body s = .ok d)
    (hs : s.inElemMatch = false) :
    ∃ t inner operand, m.target? e s = .ok (some t) ∧
      m.filterOf body (s.push (itemFrame p .root)) = .ok inner ∧
      itemCondition node inner = .ok operand ∧
      d = testOp t.name "$elemMatch" (.document operand) := by
  obtain ⟨t, ht, h⟩ := bind_eq_ok.1 h
  by_cases harray : t.type.isArray = true
  · simp only [harray, Bool.not_true, collapsed?, hs, Bool.false_and] at h
    obtain ⟨_, ⟨⟩, h⟩ := bind_eq_ok.1 h
    obtain ⟨inner, hinner, h⟩ := bind_eq_ok.1 h
    obtain ⟨operand, hoperand, h⟩ := bind_eq_ok.1 h
    cases h
    exact ⟨t, inner, operand, target_eq_ok ht, hinner, hoperand, rfl⟩
  · simp only [harray, Bool.not_false, if_true] at h
    cases h

/-- A condition on the items of an array inside another, written with a longer path if that is the
test of one field. -/
theorem anyStored_of_collapsible {node e body : Expr} {p : Param} {s : Scope} {d : Document}
    (h : m.anyStored m.filterOf node e none p body s = .ok d) (hs : s.inElemMatch = true)
    (hbody : collapsible body = true) :
    ∃ t longer, m.target? e s = .ok (some t) ∧
      m.filterOf body (s.push (itemFrame p (.path t.path))) = .ok longer ∧
      (isFieldTest longer = true → d = longer) := by
  obtain ⟨t, ht, h⟩ := bind_eq_ok.1 h
  by_cases harray : t.type.isArray = true
  · simp only [harray, Bool.not_true, collapsed?, hs, hbody, Bool.and_self, if_true] at h
    obtain ⟨o, ho, h⟩ := bind_eq_ok.1 h
    obtain ⟨longer, hlonger, ho⟩ := bind_eq_ok.1 ho
    refine ⟨t, longer, target_eq_ok ht, hlonger, fun hfield => ?_⟩
    simp only [hfield, if_true] at ho
    cases ho
    cases h
    rfl
  · simp only [harray, Bool.not_false, if_true] at h
    cases h

/-- The test of one field is the operand of `$elemMatch` as it is. -/
theorem itemCondition_of_isFieldTest {d : Document} (h : isFieldTest d = true) (node : Expr) :
    itemCondition node d = .ok d := by
  unfold isFieldTest at h
  split at h
  · rename_i key c
    simp only [Bool.and_eq_true, Bool.not_eq_true', decide_eq_true_eq] at h
    cases c <;> simp [itemCondition, Document.get?, testsItem, h.1, h.2]
  · cases h

end Mapping

/-! ## What it means -/

namespace Filter.Relocated

variable {base : List String} {d d' : Document}

/-- The name of a field below a path. -/
theorem intercalate_of_isFieldTest {path : List String} {c : Value} (hne : base ≠ [])
    (h : Filter.isFieldTest (Filter.test (String.intercalate "." path) c) = true) :
    String.intercalate "." (base ++ path) =
      String.intercalate "." base ++ "." ++ String.intercalate "." path := by
  refine String.intercalate_append_of_ne_nil hne ?_
  rintro rfl
  simp [Filter.isFieldTest, Filter.test] at h

theorem isFieldTest (hb : PlainPath base) (hne : base ≠ []) (h : Relocated base d d')
    (hd : Filter.isFieldTest d = true) : Filter.isFieldTest d' = true := by
  cases h with
  | test hp hc =>
    have hname := (hb.append hp).isOperator
    have hdot := intercalate_of_isFieldTest hne hd
    simp only [Filter.isFieldTest, Filter.test, hname]
    rw [hdot]
    simp
  | never => rfl
  | notNever => rfl
  | other hother => rw [hother] at hd; cases hd

/-- Below an array of documents a test is asked of some item, or of every item if it consists of
opposites. -/
theorem accepts (srv : Server) {item : Document} {items : List Document} (hb : PlainPath base)
    (hne : base ≠ []) (h : Relocated base d d') (hd : Filter.isFieldTest d = true)
    (hitems : documentsAt? (steps (String.intercalate "." base)) item = some items) :
    srv.accepts d' item =
      if isComplementary d = true then items.all (srv.accepts d)
      else items.any (srv.accepts d) := by
  cases h with
  | test hp hc =>
    rename_i path c
    have hbelow := intercalate_of_isFieldTest hne hd
    have hfield := srv.field_below hitems (String.intercalate "." path)
    rw [← hbelow] at hfield
    have hinner (i : Document) : srv.accepts (Filter.test (String.intercalate "." path) c) i =
        conditionHolds (srv.reads i) (String.intercalate "." path) c :=
      holds_test hp.isOperator c
    rw [Server.accepts, holds_test (hb.append hp).isOperator]
    simp only [funext hinner]
    rcases hc with hpos | hneg
    · rw [conditionHolds_any hfield hpos, isComplementary_of_isPositive hpos]
      rfl
    · rw [conditionHolds_all hfield hneg, isComplementary_of_isNegative hneg]
      rfl
  | never =>
    have hnever (i : Document) : srv.accepts Filter.never i = false := rfl
    have hpos : isComplementary Filter.never = false := rfl
    simp [hnever, funext hnever, hpos]
  | notNever =>
    have halways (i : Document) : srv.accepts (Filter.complement Filter.never) i = true := rfl
    have hneg : isComplementary (Filter.complement Filter.never) = true := rfl
    simp [halways, funext halways, hneg]
  | other hother => rw [hother] at hd; cases hd

end Filter.Relocated

/-- The documents of the array with the given name. -/
def itemsOf (name : String) (d : Document) : List Document := (documentsAt? (steps name) d).getD []

/-- There is an array of documents with the first name, and in each of them one with the second. -/
def HasArrays (outer inner : String) (d : Document) : Prop :=
  (documentsAt? (steps outer) d).isSome = true ∧
    ∀ g ∈ itemsOf outer d, (documentsAt? (steps inner) g).isSome = true

theorem documentsAt?_of_isSome {name : String} {d : Document}
    (h : (documentsAt? (steps name) d).isSome = true) :
    documentsAt? (steps name) d = some (itemsOf name d) := by
  obtain ⟨ds, hds⟩ := Option.isSome_iff_exists.1 h
  rw [itemsOf, hds]
  rfl

/-- A document with one value, at the end of a path. -/
def nest : List String → Value → Document
  | [], _ => []
  | [key], v => [(key, v)]
  | key :: path, v => [(key, .document (nest path v))]

theorem documentsAt?_nest {path : List String} (h : path ≠ []) (items : List Value) :
    documentsAt? path (nest path (.array items)) = allDocuments? items := by
  induction path with
  | nil => exact absurd rfl h
  | cons key rest ih =>
    cases rest with
    | nil => simp [nest, documentsAt?, Document.get?]
    | cons key' rest =>
      rw [← ih (by simp)]
      simp [nest, documentsAt?, Document.get?]

/-- An outer array of one document with an empty inner array. -/
def emptyInner (outer inner : String) : Document :=
  nest (steps outer) (.array [.document (nest (steps inner) (.array []))])

theorem hasArrays_emptyInner (outer inner : String) :
    HasArrays outer inner (emptyInner outer inner) ∧
      ∃ g, itemsOf outer (emptyInner outer inner) = [g] ∧ itemsOf inner g = [] := by
  have houter : documentsAt? (steps outer) (emptyInner outer inner) =
      some [nest (steps inner) (.array [])] := documentsAt?_nest (steps_ne_nil outer) _
  have hinner : documentsAt? (steps inner) (nest (steps inner) (.array [])) = some [] :=
    documentsAt?_nest (steps_ne_nil inner) []
  simp [HasArrays, itemsOf, houter, hinner]

/-- `x => coll.Any(g => sub.Any(s => T))`. -/
def Expr.nestedAny (x : Param) (coll : Expr) (g : Param) (sub : Expr) (s : Param) (T : Expr) :
    Expr :=
  .lambda [x] (.call coll "Any" [.lambda [g] (.call sub "Any" [.lambda [s] T])])

namespace Expr

/-- More frames around an expression are around all of its parts. -/
theorem Within.outer {fs fs' : Frames} {e e' : Expr} (h : Within fs e fs' e')
    (more : List (List String)) :
    Within ⟨fs.inner, fs.outer ++ more⟩ e ⟨fs'.inner, fs'.outer ++ more⟩ e' := by
  induction h with
  | refl => exact .refl
  | part hpart _ ih =>
    rename_i entry _ _ _ _ _ _
    refine .part hpart ?_
    cases entry <;> exact ih

theorem OccursForeign.outer {fs : Frames} {e : Expr} {name : String}
    (h : OccursForeign fs e name) (more : List (List String)) :
    OccursForeign ⟨fs.inner, fs.outer ++ more⟩ e name := by
  obtain ⟨fs', p, hw, hname, hinner, f, hf, hmem⟩ := h
  exact ⟨_, p, hw.outer more, hname, hinner, f, List.mem_append_left _ hf, hmem⟩

end Expr

namespace Mapping

variable {m : Mapping} {x g s : Param} {o i T : Expr} {c c' : String} {filter : Document}

/-- The place that a parameter for the tested document leads to. -/
theorem path_of_target? {f : Frame} {p : String} (hf : f.bindings = [(p, .root)]) {s : Scope}
    {e : Expr} {place : FieldPath} (he : m.schema.fieldPath? e = .ok (some place)) {t : Target}
    (ht : m.target? e (s.push f) = .ok (some t)) : t.path = place.path := by
  by_cases hp : place.param = p
  · rw [target?_push hf s he hp] at ht
    cases ht
    rfl
  · obtain ⟨err, herr⟩ := target?_push_of_ne hf s he hp
    rw [herr] at ht
    cases ht

/-- The innermost test of an accepted predicate is accepted on its own. -/
theorem check_of_nestedAny
    (h : (Scope.root x.name).check
      (.call (.member o c) "Any" [.lambda [g] (.call (.member i c') "Any" [.lambda [s] T])]) =
        .ok ()) :
    (Scope.root s.name).check T = .ok () := by
  have hnone := (Scope.post_check _ (Scope.models_root x.name)).of_ok h
  have htest := Scope.post_check T (Scope.models_root s.name)
  cases hcheck : (Scope.root s.name).check T with
  | ok u => rfl
  | error err =>
    obtain ⟨-, name, -, hoccurs⟩ := htest.of_error hcheck
    have hpart (o T : Expr) (c : String) (p : Param) :
        (.opens [p], T) ∈ (Expr.call (.member o c) "Any" [.lambda [p] T]).parts := by
      simp [Expr.parts, Expr.argument, Expr.asLambda?, Expr.isKnown, Expr.known?]
    have hinner : Expr.OccursForeign ((Entry.opens [s]).frames ⟨[g.name], [[x.name]]⟩) T name :=
      hoccurs.outer [[g.name], [x.name]]
    have hmiddle : Expr.OccursForeign ((Entry.opens [g]).frames ⟨[x.name], []⟩) _ name :=
      hinner.of_part (hpart i T c' s)
    exact absurd (hmiddle.of_part (hpart o _ c g)) (hnone name)

/-- The filter of a nested "any" whose test is that of one field. -/
theorem filter_nestedAny (hm : m.IsPlain) {coll sub : FieldPath}
    (hplain : (Expr.nestedAny x (.member o c) g (.member i c') s T).isPlain m.schema = true)
    (hcoll : m.schema.fieldPath? (.member o c) = .ok (some coll))
    (hsub : m.schema.fieldPath? (.member i c') = .ok (some sub))
    (htest : collapsible T = true) (hquant : T.quantifies = false)
    (hfilter : m.filter (.nestedAny x (.member o c) g (.member i c') s T) = .ok filter) :
    PlainPath coll.path ∧ PlainPath sub.path ∧
    ∃ own longer, m.filter (.lambda [s] T) = .ok own ∧ Relocated sub.path own longer ∧
      (isFieldTest longer = true →
        filter = testOp coll.dotted "$elemMatch" (.document longer)) := by
  simp only [Expr.nestedAny, Expr.isPlain, Expr.arePlain, Bool.and_true, Bool.and_eq_true,
    Bool.not_eq_true'] at hplain
  obtain ⟨⟨⟨hc, ho⟩, ⟨⟨hc', hi⟩, hplainTest⟩, -⟩, -⟩ := hplain
  have hplace {e : Expr} {name : String} {place : FieldPath}
      (hname : isOperator name = false) (he : e.isPlain m.schema = true)
      (h : m.schema.fieldPath? (.member e name) = .ok (some place)) : PlainPath place.path :=
    (Schema.plain_fieldPath? hm _ (by simp [Expr.isPlain, hname, he])).of_ok h place rfl
  have hcollPlain := hplace hc ho hcoll
  have hsubPlain := hplace hc' hi hsub
  refine ⟨hcollPlain, hsubPlain, ?_⟩
  obtain ⟨hcheck, hf⟩ := filter_eq_ok.1 hfilter
  rw [filterOf_any] at hf
  obtain ⟨t, inner, operand, ht, hinner, hoperand, rfl⟩ := anyStored_of_not_collapsed hf rfl
  rw [filterOf_any] at hinner
  obtain ⟨t', longer, ht', hlonger, hcollapse⟩ := anyStored_of_collapsible hinner rfl htest
  have hpath : t.path = coll.path := path_of_target? rfl hcoll ht
  have hpath' : t'.path = sub.path := path_of_target? rfl hsub ht'
  rw [hpath'] at hlonger
  have hreads : m.ReadsBelow sub.path (Scope.root s.name)
      (((Scope.root x.name).push (itemFrame g .root)).push (itemFrame s (.path sub.path))) :=
    readsBelow_push hm rfl rfl {} _
  have hrelocated := relocated_filterOf hm hsubPlain hreads T ⟨hplainTest, hquant, .inr htest⟩
  rw [hlonger] at hrelocated
  obtain ⟨own, hown, hrel⟩ := hrelocated.exists_left
  refine ⟨own, longer, filter_eq_ok.2 ⟨check_of_nestedAny hcheck, hown⟩, hrel, fun hfield => ?_⟩
  have hname : t.name = coll.dotted := by rw [Target.name, hpath]; rfl
  rw [hcollapse hfield, itemCondition_of_isFieldTest hfield] at hoperand
  cases hoperand
  rw [hname]

/-- What the longer path asks of the items of the inner array. -/
theorem accepts_elemMatch_longer (srv : Server) {coll sub : FieldPath} {own longer : Document}
    (hcoll : PlainPath coll.path) (hsub : PlainPath sub.path) (hne : sub.path ≠ [])
    (hrel : Relocated sub.path own longer) (hfield : isFieldTest own = true) {d : Document}
    (hd : HasArrays coll.dotted sub.dotted d) :
    srv.accepts (testOp coll.dotted "$elemMatch" (.document longer)) d = true ↔
      ∃ g ∈ itemsOf coll.dotted d,
        if isComplementary own = true then ∀ s ∈ itemsOf sub.dotted g, srv.accepts own s = true
        else ∃ s ∈ itemsOf sub.dotted g, srv.accepts own s = true := by
  have hname : isOperator coll.dotted = false := hcoll.isOperator
  rw [srv.accepts_elemMatch hname (documentsAt?_of_isSome hd.1), List.any_eq_true]
  refine exists_congr fun g => and_congr_right fun hg => ?_
  rw [hrel.accepts srv hsub hne hfield (documentsAt?_of_isSome (hd.2 g hg))]
  split
  · exact List.all_eq_true
  · exact List.any_eq_true

/-- **A nested "any" written with a longer path** means what the predicate says exactly if its test
does not consist of opposites. If it does, every item of the inner array has to pass it. -/
theorem accepts_nestedAny (srv : Server) (hm : m.IsPlain) {coll sub : FieldPath}
    (hplain : (Expr.nestedAny x (.member o c) g (.member i c') s T).isPlain m.schema = true)
    (hcoll : m.schema.fieldPath? (.member o c) = .ok (some coll))
    (hsub : m.schema.fieldPath? (.member i c') = .ok (some sub)) (hne : sub.path ≠ [])
    (htest : collapsible T = true) (hquant : T.quantifies = false)
    (hfilter : m.filter (.nestedAny x (.member o c) g (.member i c') s T) = .ok filter) :
    ∃ own, m.filter (.lambda [s] T) = .ok own ∧ (isFieldTest own = true →
      (∀ d, HasArrays coll.dotted sub.dotted d →
        (srv.accepts filter d = true ↔ ∃ g ∈ itemsOf coll.dotted d,
          if isComplementary own = true then ∀ s ∈ itemsOf sub.dotted g, srv.accepts own s = true
          else ∃ s ∈ itemsOf sub.dotted g, srv.accepts own s = true)) ∧
      ((∀ d, HasArrays coll.dotted sub.dotted d →
        (srv.accepts filter d = true ↔ ∃ g ∈ itemsOf coll.dotted d,
          ∃ s ∈ itemsOf sub.dotted g, srv.accepts own s = true)) ↔
        isComplementary own = false)) := by
  obtain ⟨hcollPlain, hsubPlain, own, longer, hown, hrel, hform⟩ :=
    filter_nestedAny hm hplain hcoll hsub htest hquant hfilter
  refine ⟨own, hown, fun hfield => ?_⟩
  rw [hform (hrel.isFieldTest hsubPlain hne hfield)]
  have hmeans (d : Document) (hd : HasArrays coll.dotted sub.dotted d) :=
    accepts_elemMatch_longer srv hcollPlain hsubPlain hne hrel hfield hd
  refine ⟨hmeans, fun hclaim => ?_, fun hpos d hd => ?_⟩
  · -- An item of the outer array with no item in the inner one passes any complementary test.
    obtain ⟨hd, g, hgs, hss⟩ := hasArrays_emptyInner coll.dotted sub.dotted
    have hempty := (hmeans _ hd).symm.trans (hclaim _ hd)
    cases hcomp : isComplementary own with
    | false => rfl
    | true => simp [hgs, hss, hcomp] at hempty
  · simpa [hpos] using hmeans d hd

/-- Documents with items `G` that have items `S` with a text `D`. -/
def groups : Mapping where
  schema :=
    { documents :=
      [{ name := "Root", members := [⟨"G", "G", .array (.document "C"), .natural⟩] },
       { name := "C", members := [⟨"S", "S", .array (.document "C"), .natural⟩,
          ⟨"D", "D", .string, .natural⟩] }] }

/-- The text of `s` compares with "a". -/
def comparesText (op : BinaryOp) : Expr :=
  .binary op (.member (.param ⟨"s", .document "C"⟩) "D") (.literal ⟨.string "a", .string⟩)

/-- Some `s` of some `g` has a text that compares with "a". -/
def someText (op : BinaryOp) : Expr :=
  .nestedAny ⟨"x", .document "Root"⟩ (.member (.param ⟨"x", .document "Root"⟩) "G")
    ⟨"g", .document "C"⟩ (.member (.param ⟨"g", .document "C"⟩) "S") ⟨"s", .document "C"⟩
    (comparesText op)

theorem isPlain_groups : groups.IsPlain := by
  constructor <;> simp [groups, isOperator]

theorem filter_someText_equal : groups.filter (someText .equal) =
    .ok (testOp "G" "$elemMatch" (.document (test "S.D" (.string "a")))) := by
  with_unfolding_all rfl

theorem filter_someText_notEqual : groups.filter (someText .notEqual) =
    .ok (testOp "G" "$elemMatch" (.document (testOp "S.D" "$ne" (.string "a")))) := by
  with_unfolding_all rfl

/-- Equality is asked of some item, inequality of every item. -/
theorem accepts_nestedAny_someText :
    groups.filter (someText .equal) =
      .ok (testOp "G" "$elemMatch" (.document (test "S.D" (.string "a")))) ∧
    groups.filter (someText .notEqual) =
      .ok (testOp "G" "$elemMatch" (.document (testOp "S.D" "$ne" (.string "a")))) ∧
    (∀ d, HasArrays "G" "S" d →
      (Server.equality.accepts
          (testOp "G" "$elemMatch" (.document (test "S.D" (.string "a")))) d = true ↔
        ∃ g ∈ itemsOf "G" d, ∃ s ∈ itemsOf "S" g,
          Server.equality.accepts (test "D" (.string "a")) s = true)) ∧
    (∀ d, HasArrays "G" "S" d →
      (Server.equality.accepts
          (testOp "G" "$elemMatch" (.document (testOp "S.D" "$ne" (.string "a")))) d = true ↔
        ∃ g ∈ itemsOf "G" d, ∀ s ∈ itemsOf "S" g,
          Server.equality.accepts (testOp "D" "$ne" (.string "a")) s = true)) := by
  have hcoll : groups.schema.fieldPath? (.member (.param ⟨"x", .document "Root"⟩) "G") =
      .ok (some { param := "x", path := ["G"], type := .array (.document "C") }) := rfl
  have hsub : groups.schema.fieldPath? (.member (.param ⟨"g", .document "C"⟩) "S") =
      .ok (some { param := "g", path := ["S"], type := .array (.document "C") }) := rfl
  refine ⟨filter_someText_equal, filter_someText_notEqual, ?_, ?_⟩
  · obtain ⟨own, hown, hmeans⟩ := accepts_nestedAny Server.equality isPlain_groups rfl hcoll hsub
      (by simp) rfl rfl filter_someText_equal
    cases hown
    exact (hmeans rfl).2.2 rfl
  · obtain ⟨own, hown, hmeans⟩ := accepts_nestedAny Server.equality isPlain_groups rfl hcoll hsub
      (by simp) rfl rfl filter_someText_notEqual
    cases hown
    exact (hmeans rfl).1

/-- An item of `G` with the texts "a" and "b" in its items. -/
def twoTexts : Document :=
  [("S", .array [.document [("D", .string "a")], .document [("D", .string "b")]])]

/-- Of two texts one is not "a", but the filter with the longer path does not accept the
document. -/
theorem not_accepts_someText_notEqual :
    ∃ filter own d, groups.filter (someText .notEqual) = .ok filter ∧
      groups.filter (.lambda [⟨"s", .document "C"⟩] (comparesText .notEqual)) = .ok own ∧
      HasArrays "G" "S" d ∧ Server.equality.accepts filter d = false ∧
      ∃ g ∈ itemsOf "G" d, ∃ s ∈ itemsOf "S" g, Server.equality.accepts own s = true := by
  have hG : documentsAt? (steps "G") [("G", .array [.document twoTexts])] = some [twoTexts] := rfl
  have hS : documentsAt? (steps "S") twoTexts =
      some [[("D", .string "a")], [("D", .string "b")]] := rfl
  have hne {name : String} (hname : isOperator name = false) (d : Document) :
      Server.equality.accepts (testOp name "$ne" (.string "a")) d =
        !(Server.equality.reads d).field name "$eq" (.string "a") := by
    have hop : isOperator "$ne" = true := rfl
    rw [Server.accepts, holds_testOp hname hop]
    simp [operatorHolds]
  have hfield (text : String) :
      (Server.equality.reads [("D", .string text)]).field "D" "$eq" (.string "a") =
        decide (text = "a") := by
    change Server.equality.passes "$eq" (.string "a") (some (.string text)) = _
    simp [Server.equality]
  have hbelow := Server.equality.field_below hS "D" "$eq" (.string "a")
  refine ⟨_, testOp "D" "$ne" (.string "a"), [("G", .array [.document twoTexts])],
    filter_someText_notEqual, rfl, ?_, ?_, ?_⟩
  · simp [HasArrays, itemsOf, hG, hS]
  · have hrefused :
        Server.equality.accepts (testOp "S.D" "$ne" (.string "a")) twoTexts = false := by
      rw [hne rfl]
      simpa [hfield] using hbelow
    rw [Server.accepts_elemMatch _ rfl hG]
    simp [hrefused]
  · have hname : isOperator "D" = false := rfl
    simp [itemsOf, hG, hS, hne hname, hfield]

end Mapping

end DocQuery
