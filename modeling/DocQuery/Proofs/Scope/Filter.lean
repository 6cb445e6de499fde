/-
Filters raise no illegal scope reference where every parameter is bound by the
innermost frame (`legal_filterOf`): what a filter reads is a part of its
expression, and the scope that it is read in has the parameters of the frames
around that part.
-/
import DocQuery.Filter.Unfolding
import DocQuery.Proofs.Scope.Reference

namespace DocQuery

open DocQuery.Filter

namespace Expr

variable {fs : Frames}

theorem readable_of_lengthOf? {e source : Expr} (h : e.Readable fs)
    (hs : e.lengthOf? = some source) : source.Readable fs := by
  unfold lengthOf? at hs
  split at hs
  · rename_i target name he
    split at hs <;> cases hs
    exact ((h.owns_strip he rfl).same (by simp [parts])).readable
  · rename_i target method he
    split at hs <;> cases hs
    exact (h.owns_strip he rfl).callTarget
  · cases hs

theorem readable_of_stringLengthOf? {e source : Expr} (h : e.Readable fs)
    (hs : e.stringLengthOf? = some source) : source.Readable fs := by
  unfold stringLengthOf? at hs
  split at hs
  · rename_i target name he
    split at hs <;> cases hs
    exact ((h.owns_strip he rfl).same (by simp [parts])).readable
  · rename_i target method he
    split at hs <;> cases hs
    exact (h.owns_strip he rfl).callTarget
  · cases hs

end Expr

namespace Mapping

variable {m : Mapping} {s : Scope} {fs : Frames} {c : Comparison}

/-! ## Comparisons -/

theorem readable_of? {op : BinaryOp} {left right : Expr}
    (h : Comparison.of? op left right = some c) (hl : left.Readable fs) (hr : right.Readable fs) :
    c.left.Readable fs := by
  unfold Comparison.of? at h
  split at h <;> cases h
  · exact hr
  · exact hl

theorem legal_plainComparison (hs : s.Models fs) (node : Expr) (hc : c.left.Readable fs) :
    Legal (m.plainComparison node c s) := by
  refine Legal.bind (legal_targetOr hs node hc) fun t => ?_
  refine Legal.bind (legal_encodeFor t _) fun x => ?_
  split
  · trivial
  · exact legal_unsupported node

theorem legal_arrayLengthRule (hs : s.Models fs) (hc : c.left.Readable fs) :
    Legal (m.arrayLengthRule c s) := by
  unfold arrayLengthRule
  split
  · rename_i hsource _
    split
    · exact Legal.bind (legal_target hs (Expr.readable_of_lengthOf? hc hsource)) fun _ => trivial
    · trivial
  · trivial

theorem legal_moduloRule (hs : s.Models fs) (hc : c.left.Readable fs) :
    Legal (m.moduloRule c s) := by
  unfold moduloRule
  split
  · rename_i dividend divisor he
    have hdividend : dividend.Owns fs := (hc.owns_strip he rfl).same (by simp [Expr.parts])
    split
    · refine Legal.bind (legal_target hs hdividend.readable) fun t => ?_
      dsimp only
      split <;> trivial
    · trivial
  · trivial

theorem legal_orderingRule (hs : s.Models fs) (hc : c.left.Readable fs) :
    Legal (m.orderingRule c s) := by
  unfold orderingRule
  split
  · rename_i target arg he
    split
    · exact (legal_plainComparison hs c.left (hc.owns_strip he rfl).callTarget).map some
    · trivial
  · trivial

theorem legal_indexOfRule (hs : s.Models fs) (hc : c.left.Readable fs) :
    Legal (m.indexOfRule c s) := by
  unfold indexOfRule
  split
  · rename_i source method args he
    split
    · split
      · split
        · trivial
        · exact Legal.bind (legal_target hs (hc.owns_strip he rfl).callTarget) fun _ => trivial
      · trivial
    · trivial
  · trivial

theorem legal_charAtRule (hs : s.Models fs) (hc : c.left.Readable fs) :
    Legal (m.charAtRule c s) := by
  unfold charAtRule
  split
  · rename_i source position he
    have hsource : source.Owns fs := (hc.owns_strip he rfl).same (by simp [Expr.parts])
    split
    · split
      · exact Legal.bind (legal_target hs hsource.readable) fun _ => trivial
      · trivial
    · trivial
  · trivial

theorem legal_stringLengthRule (hs : s.Models fs) (hc : c.left.Readable fs) :
    Legal (m.stringLengthRule c s) := by
  unfold stringLengthRule
  split
  · rename_i hsource _
    split
    · exact Legal.bind (legal_target hs (Expr.readable_of_stringLengthOf? hc hsource))
        fun _ => trivial
    · trivial
  · trivial

theorem legal_letterCaseRule (hs : s.Models fs) (hc : c.left.Readable fs) :
    Legal (m.letterCaseRule c s) := by
  unfold letterCaseRule
  split
  · rename_i source method he
    split
    · split
      · refine Legal.bind (legal_target hs (hc.owns_strip he rfl).callTarget) fun t => ?_
        split
        · split <;> trivial
        · trivial
        · exact legal_unsupported c.left
      · trivial
    · trivial
  · trivial

theorem legal_bitsRule (hs : s.Models fs) (hc : c.left.Readable fs) : Legal (m.bitsRule c s) := by
  unfold bitsRule
  split
  · rename_i operand right he
    have hoperand : operand.Owns fs := (hc.owns_strip he rfl).same (by simp [Expr.parts])
    split
    · split
      · split
        · split
          · exact Legal.bind (legal_target hs hoperand.readable) fun _ => trivial
          · trivial
        · trivial
      · trivial
    · trivial
  · trivial

theorem legal_firstAnswer (hs : s.Models fs) (hc : c.left.Readable fs) :
    Legal (c.firstAnswer s m.comparisonRules) := by
  have hrules : ∀ rule ∈ m.comparisonRules, Legal (rule c s) := by
    simp only [comparisonRules, List.mem_cons, List.not_mem_nil, or_false, forall_eq_or_imp,
      forall_eq]
    exact ⟨legal_arrayLengthRule hs hc, legal_moduloRule hs hc, legal_orderingRule hs hc,
      legal_indexOfRule hs hc, legal_charAtRule hs hc, legal_stringLengthRule hs hc,
      legal_letterCaseRule hs hc, legal_bitsRule hs hc⟩
  generalize m.comparisonRules = rules at hrules
  induction rules with
  | nil => trivial
  | cons rule rest ih =>
    refine Legal.bind (hrules rule (by simp)) fun o => ?_
    cases o with
    | none => exact ih fun r hr => hrules r (by simp [hr])
    | some d => trivial

/-! ## Strings and membership -/

theorem readable_unwrap (node : Expr) {e : Expr} (sm : StringMatch) (he : e.Readable fs)
    (hsm : sm.receiver.Readable fs) :
    Post (fun r => r.receiver.Readable fs) Error.Legal (sm.unwrap node e) := by
  have hquote (e : Expr) (h : (Expr.quote e).Readable fs) : e.Readable fs :=
    fun hl => (h hl).same (by simp [Expr.parts])
  have hconvert (e : Expr) (t : ValueType) (h : (Expr.convert e t).Readable fs) : e.Readable fs :=
    ((h rfl).same (by simp [Expr.parts])).readable
  rcases StringMatch.unwrap_cases hquote hconvert (fun _ _ _ h => (h rfl).callTarget) node he hsm
    with ⟨r, hr, hreadable⟩ | herror
  · rw [hr]
    exact hreadable
  · rw [herror]
    exact Error.legal_unsupported node

theorem legal_stringMatch (hs : s.Models fs) (node : Expr) {receiver : Expr}
    (hr : receiver.Readable fs) (place : TextPlace) (needle : Expr) :
    Legal (m.stringMatch node receiver place needle s) := by
  unfold stringMatch
  split
  · exact legal_unsupported node
  · refine Post.bind (readable_unwrap node _ hr hr) fun found hfound => ?_
    exact Legal.bind (legal_target hs hfound) fun _ => trivial

theorem readable_of_oneKnown? {a b source : Expr} {l : Literal} (ha : a.Readable fs)
    (hb : b.Readable fs) (h : oneKnown? a b = some (source, l)) : source.Readable fs := by
  unfold oneKnown? at h
  split at h <;> cases h
  · exact ha
  · exact hb

theorem legal_equalIgnoringCase (hs : s.Models fs) (node : Expr) {a b : Expr}
    (ha : a.Readable fs) (hb : b.Readable fs) : Legal (m.equalIgnoringCase node a b s) := by
  unfold equalIgnoringCase
  split
  · exact legal_unsupported node
  · rename_i source l hsource
    refine Legal.bind (legal_target hs (readable_of_oneKnown? ha hb hsource)) fun t => ?_
    split
    · trivial
    · trivial
    · exact legal_unsupported node

theorem legal_regexMatch (hs : s.Models fs) (node : Expr) {input : Expr} (hi : input.Readable fs)
    (pattern : Expr) (options : Option Expr) :
    Legal (m.regexMatch node input pattern options s) := by
  have hletters : Legal (regexLetters node options) := by
    unfold regexLetters
    split
    · trivial
    · split <;> first | trivial | exact legal_unsupported node
  unfold regexMatch
  split
  · exact legal_unsupported node
  · exact Legal.bind hletters fun _ => Legal.bind (legal_target hs hi) fun _ => trivial

theorem legal_containsKey (hs : s.Models fs) (node : Expr) {dictionary : Expr} (key : Expr)
    (hd : dictionary.Readable fs) : Legal (m.containsKey node dictionary key s) := by
  refine Legal.bind (legal_target hs hd) fun t => ?_
  refine Legal.bind (legal_knownOr node key) fun l => ?_
  split
  · split
    · trivial
    · exact legal_unsupported node
  · trivial
  · exact legal_unsupported node

theorem legal_isOneOf (hs : s.Models fs) (node : Expr) {item : Expr} (hi : item.Readable fs)
    (values : Expr) : Legal (m.isOneOf node item values s) := by
  refine Legal.bind (legal_knownOr node values) fun l => ?_
  refine Legal.bind (legal_target hs hi) fun t => ?_
  exact Legal.bind (legal_encodeItemsFor node t l) fun _ => trivial

theorem legal_contains (hs : s.Models fs) (node : Expr) {collection item : Expr}
    (hc : collection.Readable fs) (hi : item.Readable fs) :
    Legal (m.contains node collection item s) := by
  unfold contains
  dsimp only
  split
  · exact legal_containsKey hs node item hc
  · split
    · exact legal_stringMatch hs node hc _ _
    · split
      · exact legal_isOneOf hs node hi collection
      · refine Legal.bind (legal_target hs hc) fun t => ?_
        split
        · refine Legal.bind (legal_knownOr node item) fun l => ?_
          exact Legal.bind (legal_encodeFor t.item l) fun _ => trivial
        · exact legal_unsupported node

theorem readable_of_soughtIn? {q : Quantifier} {param : String} {body place : Expr}
    {throughArray : Bool} (h : body.Readable fs)
    (hsought : soughtIn? q param body = some (place, throughArray)) : place.Readable fs := by
  unfold soughtIn? at hsought
  split at hsought
  · rename_i target arg he
    split at hsought <;> cases hsought
    exact (h.owns_strip he rfl).callTarget
  · rename_i left right he
    have hbinary := h.owns_strip he rfl
    split at hsought
    · cases hsought
    · split at hsought
      · cases hsought
        exact (hbinary.same (by simp [Expr.parts])).readable
      · split at hsought <;> cases hsought
        exact (hbinary.same (by simp [Expr.parts])).readable
  · cases hsought

/-- The parameter of a lambda over known items joins those that are there. -/
theorem legal_knownItems (hs : s.Models fs) (node : Expr) (q : Quantifier) (values : Literal)
    (param : Param) {body : Expr} (hb : body.Readable ((Entry.joins [param]).frames fs)) :
    Legal (m.knownItems node q values param body s) := by
  unfold knownItems
  split
  · exact legal_unsupported node
  · rename_i place throughArray hsought
    have hscope : (s.bindInner param.name .known).Models ((Entry.joins [param]).frames fs) :=
      hs.bindInner param.name .known
    refine Legal.bind (legal_target hscope (readable_of_soughtIn? hb hsought)) fun t => ?_
    exact Legal.bind (legal_encodeItemsFor node _ values) fun _ => trivial

theorem legal_typeSelection (node source typeArg : Expr) :
    Legal (m.typeSelection node source typeArg) := by
  unfold typeSelection
  split
  · exact Legal.bind (m.schema.legal_discriminator _ _) fun _ => trivial
  · exact legal_unsupported node

theorem legal_typeTest (hs : s.Models fs) (node : Expr) {operand : Expr}
    (ho : operand.Readable fs) (typeName : String) (exact : Bool) :
    Legal (m.typeTest node operand typeName exact s) := by
  unfold typeTest
  split
  · refine Legal.bind (m.schema.legal_discriminator _ _) fun o => ?_
    cases o with
    | none => trivial
    | some mark =>
      refine Legal.bind (legal_target hs ho) fun t => ?_
      dsimp only
      split <;> trivial
  · exact legal_unsupported node

/-! ## Every node -/

section Node

variable {sub : Expr → Scope → Result Document} {n : Nat}

theorem legal_comparison (hs : s.Models fs) (hsub : SubLegal sub n) (node : Expr) (op : BinaryOp)
    {left right : Expr} (hl : left.Readable fs) (hr : right.Readable fs) (hln : left.size < n)
    (hrn : right.size < n) : Legal (m.comparison sub node op left right s) := by
  unfold comparison
  split
  · exact legal_unsupported node
  · rename_i c hc
    have hleft := readable_of? hc hl hr
    have htest := hsub c.left s fs (Comparison.size_left_lt hc hln hrn) hleft hs
    have hfield : Legal (m.plainComparison node c s) := legal_plainComparison hs node hleft
    refine Legal.bind (legal_firstAnswer hs hleft) fun o => ?_
    cases o with
    | some d => trivial
    | none =>
      dsimp only
      split
      · split
        · exact Legal.bind htest fun _ => trivial
        · exact hfield
      · split
        · exact Legal.bind htest fun _ => trivial
        · exact hfield
      · exact hfield

theorem legal_stringEquality (hs : s.Models fs) (hsub : SubLegal sub n) (node comparison : Expr)
    {a b : Expr} (ha : a.Readable fs) (hb : b.Readable fs) (han : a.size < n) (hbn : b.size < n) :
    Legal (m.stringEquality sub node a b comparison s) := by
  unfold stringEquality
  split
  · exact legal_comparison hs hsub node .equal ha hb han hbn
  · exact legal_equalIgnoringCase hs node ha hb
  · exact legal_unsupported node

theorem legal_negation (hs : s.Models fs) (hsub : SubLegal sub n) (node : Expr) {operand : Expr}
    (ho : operand.Readable fs) (hon : operand.size < n) :
    Legal (m.negation sub node operand s) := by
  unfold negation
  split
  · rename_i inner he
    have hsize := operand.size_strip_le
    have hinner : inner.Owns fs := (ho.owns_strip he rfl).same (by simp [Expr.parts])
    rw [he, Expr.size] at hsize
    exact hsub inner s fs (by omega) hinner.readable hs
  · split
    · exact legal_unsupported node
    · exact (hsub operand s fs hon ho hs).map _

theorem models_itemFrame (hs : s.Models fs) (param : Param) (b : Binding) (elemMatch : Bool) :
    (s.push { Frame.of param.name b with elemMatch := elemMatch }).Models
      ((Entry.opens [param]).frames fs) :=
  hs.push fun name => by simp [Frame.isSome_binding?, Frame.of]

theorem legal_collapsed? (hs : s.Models fs) (hsub : SubLegal sub n) (stored : Target)
    (param : Param) {body : Expr} (hb : body.Owns ((Entry.opens [param]).frames fs))
    (hbn : body.size < n) : Legal (collapsed? sub stored param body s) := by
  unfold collapsed?
  split
  · exact Legal.bind (hsub body _ _ hbn hb.readable (models_itemFrame hs param _ true))
      fun _ => trivial
  · trivial

theorem legal_itemFilter (hs : s.Models fs) (hsub : SubLegal sub n) (param : Param) {body : Expr}
    (hb : body.Owns ((Entry.opens [param]).frames fs)) (hbn : body.size < n) :
    Legal (itemFilter sub param body s) :=
  hsub body _ _ hbn hb.readable (models_itemFrame hs param .root true)

theorem legal_itemCondition (node : Expr) (body : Document) : Legal (itemCondition node body) := by
  unfold itemCondition
  split
  · split
    · exact legal_unsupported node
    · trivial
  · trivial
  · trivial
  · trivial
  · exact legal_unsupported node

theorem legal_anyStored (hs : s.Models fs) (hsub : SubLegal sub n) (node : Expr)
    {array body : Expr} (ha : array.Readable fs) (selection : Option Document) (param : Param)
    (hb : body.Owns ((Entry.opens [param]).frames fs)) (hbn : body.size < n) :
    Legal (m.anyStored sub node array selection param body s) := by
  have hitem := legal_itemFilter hs hsub param hb hbn
  refine Legal.bind (legal_target hs ha) fun t => ?_
  split
  · exact legal_unsupported node
  · cases selection with
    | some mark =>
      exact Legal.bind hitem fun d => Legal.bind (legal_itemCondition node _) fun _ => trivial
    | none =>
      refine Legal.bind (legal_collapsed? hs hsub t param hb hbn) fun o => ?_
      cases o with
      | some d => trivial
      | none =>
        exact Legal.bind hitem fun d => Legal.bind (legal_itemCondition node _) fun _ => trivial

section Call
variable {target : Expr} {method : String} {args : List Expr} {arg : Expr}

theorem legal_anyItem (hs : s.Models fs) (hsub : SubLegal sub n) (node : Expr)
    (h : (Expr.call target method [arg]).Owns fs) (han : arg.size < n) :
    Legal (m.anyItem sub node target arg s) := by
  unfold anyItem
  split
  · exact legal_unsupported node
  · rename_i param body hlambda
    have ha := Expr.asLambda?_of_asUnaryLambda? hlambda
    have hbn := Nat.lt_trans (Expr.size_lt_of_asUnaryLambda? hlambda) han
    split
    · rename_i values hk
      exact legal_knownItems hs node .any values param (h.joined (by simp) ha hk).readable
    · rename_i hk
      have hb := h.opened (by simp) ha hk
      split
      · rename_i inner typeArg he
        have hinner := (h.callTarget.owns_strip he rfl).callTarget
        refine Legal.bind (legal_typeSelection node inner typeArg) fun selection => ?_
        exact legal_anyStored hs hsub node hinner selection param hb hbn
      · exact legal_anyStored hs hsub node h.callTarget none param hb hbn

theorem legal_allItems (hs : s.Models fs) (hsub : SubLegal sub n) (node : Expr)
    (h : (Expr.call target method [arg]).Owns fs) (han : arg.size < n) :
    Legal (m.allItems sub node target arg s) := by
  unfold allItems
  split
  · exact legal_unsupported node
  · rename_i param body hlambda
    have ha := Expr.asLambda?_of_asUnaryLambda? hlambda
    have hbn := Nat.lt_trans (Expr.size_lt_of_asUnaryLambda? hlambda) han
    split
    · rename_i values hk
      exact legal_knownItems hs node .all values param (h.joined (by simp) ha hk).readable
    · rename_i hk
      refine Legal.bind (legal_target hs h.callTarget) fun t => ?_
      split
      · exact legal_unsupported node
      · have hitem := legal_itemFilter hs hsub param (h.opened (by simp) ha hk) hbn
        refine Legal.bind hitem fun d => ?_
        exact Legal.bind (legal_itemCondition node _) fun _ => trivial

theorem legal_nonEmpty (hs : s.Models fs) (node : Expr) {source : Expr}
    (hsource : source.Readable fs) : Legal (m.nonEmpty node source s) := by
  refine Legal.bind (legal_target hs hsource) fun t => ?_
  split
  · trivial
  · exact legal_unsupported node

theorem legal_hasBits (hs : s.Models fs) (node flag : Expr) {operand : Expr}
    (ho : operand.Readable fs) : Legal (m.hasBits node operand flag s) :=
  Legal.bind (legal_target hs ho) fun _ => Legal.bind (legal_knownOr node flag) fun _ => trivial

theorem legal_callFilter (hs : s.Models fs) (hsub : SubLegal sub n) (node : Expr)
    (h : (Expr.call target method args).Owns fs)
    (hn : (Expr.call target method args).size ≤ n) :
    Legal (m.callFilter sub node target method args s) := by
  have ht := h.callTarget
  simp only [Expr.size] at hn
  unfold callFilter
  split
  · split
    · exact legal_nonEmpty hs node ht
    · exact legal_unsupported node
  · rename_i arg
    have ha : arg.Readable fs := h.callArg (by simp)
    simp only [Expr.sizes] at hn
    have htn : target.size < n := by omega
    have han : arg.size < n := by omega
    split
    · exact legal_anyItem hs hsub node h han
    · exact legal_allItems hs hsub node h han
    · exact legal_contains hs node ht ha
    · exact legal_stringMatch hs node ht _ _
    · exact legal_stringMatch hs node ht _ _
    · exact legal_containsKey hs node arg ht
    · exact legal_comparison hs hsub node .equal ht ha htn han
    · exact legal_isOneOf hs node ht arg
    · exact legal_hasBits hs node arg ht
    · exact legal_unsupported node
  · rename_i other comparison
    simp only [Expr.sizes] at hn
    split
    · exact legal_stringEquality hs hsub node comparison ht (h.callArg (by simp)) (by omega)
        (by omega)
    · exact legal_unsupported node
  · exact legal_unsupported node

theorem legal_staticCallFilter (hs : s.Models fs) (hsub : SubLegal sub n) (node : Expr)
    (owner method : String) (ha : ∀ a ∈ args, a.Readable fs) (hn : ∀ a ∈ args, a.size < n) :
    Legal (m.staticCallFilter sub node owner method args s) := by
  unfold staticCallFilter
  split
  · exact Legal.bind (legal_target hs (ha _ (by simp))) fun _ => trivial
  · exact legal_regexMatch hs node (ha _ (by simp)) _ _
  · exact legal_regexMatch hs node (ha _ (by simp)) _ _
  · exact legal_comparison hs hsub node .equal (ha _ (by simp)) (ha _ (by simp)) (hn _ (by simp))
      (hn _ (by simp))
  · exact legal_comparison hs hsub node .equal (ha _ (by simp)) (ha _ (by simp)) (hn _ (by simp))
      (hn _ (by simp))
  · exact legal_stringEquality hs hsub node _ (ha _ (by simp)) (ha _ (by simp)) (hn _ (by simp))
      (hn _ (by simp))
  · exact legal_unsupported node

end Call

theorem legal_truthTest (hs : s.Models fs) {node : Expr} (h : node.Readable fs) :
    Legal (m.truthTest node s) := by
  refine Legal.bind (legal_target hs h) fun t => ?_
  split
  · trivial
  · trivial
  · exact legal_unsupported node

theorem legal_filterNode (hs : s.Models fs) {node : Expr} (hsub : SubLegal sub node.size)
    (h : node.Readable fs) : Legal (m.filterNode sub node s) := by
  cases node with
  | quote inner =>
    exact hsub inner s fs (by simp [Expr.size]) (fun hl => (h hl).same (by simp [Expr.parts])) hs
  | convert operand type =>
    exact hsub operand s fs (by simp [Expr.size]) ((h rfl).same (by simp [Expr.parts])).readable hs
  | literal l =>
    simp only [filterNode]
    split
    · trivial
    · exact legal_unsupported _
  | inject filter => trivial
  | not operand =>
    exact legal_negation hs hsub _ ((h rfl).same (by simp [Expr.parts])).readable
      (by simp [Expr.size])
  | binary op left right =>
    have hl : left.Owns fs := (h rfl).same (by simp [Expr.parts])
    have hr : right.Owns fs := (h rfl).same (by simp [Expr.parts])
    have hln : left.size < (Expr.binary op left right).size := by simp only [Expr.size]; omega
    have hrn : right.size < (Expr.binary op left right).size := by simp only [Expr.size]; omega
    have hboth (join : List Document → Document) :
        Legal (do return join [← sub left s, ← sub right s]) :=
      Legal.bind (hsub left s fs hln hl.readable hs) fun _ =>
        Legal.bind (hsub right s fs hrn hr.readable hs) fun _ => trivial
    simp only [filterNode]
    split
    · exact hboth conj
    · exact hboth disj
    · split
      · exact hboth conj
      · exact legal_unsupported _
    · split
      · exact hboth disj
      · exact legal_unsupported _
    · split
      · exact legal_comparison hs hsub _ _ hl.readable hr.readable hln hrn
      · exact legal_unsupported _
  | call target method args => exact legal_callFilter hs hsub _ (h rfl) (Nat.le_refl _)
  | staticCall owner method args =>
    simp only [filterNode]
    cases hc : (Expr.staticCall owner method args).receiverForm? with
    | some call =>
      exact hsub call s fs (Expr.size_lt_of_receiverForm? hc) ((h rfl).receiverForm hc).readable hs
    | none =>
      refine legal_staticCallFilter hs hsub _ owner method ?_ fun a ha => ?_
      · exact fun a ha => (h rfl).staticArg hc ha
      · have := Expr.size_le_sizes ha
        simp only [Expr.size]; omega
  | typeTest operand typeName exact =>
    exact legal_typeTest hs _ ((h rfl).same (by simp [Expr.parts])).readable typeName exact
  | member target name =>
    simp only [filterNode]
    split
    · exact Legal.bind (legal_target hs ((h rfl).same (by simp [Expr.parts])).readable)
        fun _ => trivial
    · exact legal_truthTest hs h
  | param p => exact legal_truthTest hs h
  | index target position => exact legal_truthTest hs h
  | _ => exact legal_unsupported _

end Node

/-- **A filter raises no illegal scope reference where every parameter is bound by the innermost
frame.** -/
theorem legal_filterOf (m : Mapping) (e : Expr) {s : Scope} {fs : Frames} (hs : s.Models fs)
    (h : e.Readable fs) : Legal (m.filterOf e s) := by
  rw [filterOf_eq]
  exact legal_filterNode hs (fun e' _ _ _ h' hs' => legal_filterOf m e' hs' h') h
termination_by e.size

end Mapping
end DocQuery
