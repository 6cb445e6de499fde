/-
Stages in bytes and in code points.

A stage in code points is the stage in bytes with the names of three operators
replaced, and its results are read alike (`project_counting`, `group_counting`).
Filters and the fields to return count nothing (`filter_counting`,
`inclusion?_counting`). A name that a selector itself brings into the stage is not
replaced: the parameter for the result of a fold, or the element of a constant
(`project_names_kept`).
-/
import DocQuery.Filter.Unfolding
import DocQuery.Inclusion
import DocQuery.Proofs.Aggregation.StringUnit

namespace DocQuery

open Aggregation
open StringUnit (countsBytes)

namespace Mapping

variable {m : Mapping}

/-! ## Projections -/

theorem projectedMembers_counting {members : List (String × Expr)} {s : Scope}
    (typeName : Option String) (hs : s.CountsNoBytes)
    (hm : ∀ p ∈ members, p.2.every m.bringsNoByteCount = true) :
    (m.counting .codePoints).projectedMembers typeName members s =
      (List.map fun (element, v, name) => (element, v.inCodePoints, name)) <$>
        (m.counting .bytes).projectedMembers typeName members s := by
  unfold projectedMembers
  induction members with
  | nil => rfl
  | cons p rest ih =>
    have hp := operandOf_counting m p.2 hs (hm p (by simp))
    have houtput (unit : StringUnit) :
        (m.counting unit).outputElement typeName p.1 = m.outputElement typeName p.1 := rfl
    simp only [List.mapM_cons, hp, houtput, ih fun q hq => hm q (by simp [hq]), bind_map_left,
      map_bind, map_pure, bind_assoc, pure_bind, List.map_cons, inCodePoints_stageMember]

/-- The elements of a projected object are none of the operators that count. -/
theorem elements_projectedMembers {typeName : Option String} {members : List (String × Expr)}
    {s : Scope} (hm : m.storesNoByteCount typeName members = true) :
    Post (fun projected => ∀ p ∈ projected, StringUnit.inCodePoints p.1 = p.1) (fun _ => True)
      ((m.counting .bytes).projectedMembers typeName members s) := by
  refine Post.mapM fun p hp => ?_
  have hp := List.all_eq_true.1 hm p hp
  have houtput :
      (m.counting .bytes).outputElement typeName p.1 = m.outputElement typeName p.1 := rfl
  simp only [houtput]
  refine Post.bind (Post.self (m.outputElement typeName p.1)) fun element helement => ?_
  refine Post.bind (Post.of_total _) fun v _ => ?_
  exact StringUnit.inCodePoints_eq_self (by simpa [helement] using hp)

theorem keys_withoutId {body : Document} (h : ∀ k ∈ body.keys, StringUnit.inCodePoints k = k) :
    ∀ k ∈ (withoutId body).keys, StringUnit.inCodePoints k = k := by
  unfold withoutId
  split
  · exact h
  · intro k hk
    rcases Document.mem_keys_insert.1 hk with rfl | hk
    · rfl
    · exact h k hk

/-- A stage whose own names are kept has the operators below them replaced. -/
theorem mapFieldKeys_withoutId {body : Document}
    (h : ∀ k ∈ body.keys, StringUnit.inCodePoints k = k) :
    Value.mapFieldKeys StringUnit.inCodePoints (withoutId body) =
      withoutId (Document.mapValues Value.inCodePoints body) := by
  rw [Document.mapFieldKeys_eq_mapValues (keys_withoutId h)]
  unfold withoutId
  rw [Document.hasKey_mapValues]
  split
  · rfl
  · exact (Document.insert_mapValues Value.inCodePoints body "_id" (.int32 0)).symm

/-- Members of a new object, with what its node brings in. -/
theorem names_of_asObject? {body : Expr} {typeName : Option String}
    {members : List (String × Expr)} (h : body.every m.bringsNoByteCount = true)
    (ho : body.asObject? = some (typeName, members)) :
    (∀ p ∈ members, countsBytes p.1 = false ∧ p.2.every m.bringsNoByteCount = true) ∧
      m.storesNoByteCount typeName members = true := by
  have hstrip := Expr.every_strip h
  unfold Expr.asObject? at ho
  split at ho
  · rename_i name p rest hbody
    cases ho
    rw [hbody] at hstrip
    have hself := Expr.every_self hstrip
    simp only [Expr.every, Bool.and_eq_true] at hstrip
    simp only [bringsNoByteCount, Expr.receiverForm?, Option.getD_none, Bool.and_eq_true] at hself
    have hnames := List.all_eq_true.1 hself.1.1.1
    exact ⟨fun q hq => ⟨by simpa using hnames q hq, Expr.every_of_mem_members hstrip.2 hq⟩, hself.2⟩
  · cases ho

/-- The projection of a selector in code points. -/
theorem project_counting {selector : Expr} (h : selector.every m.bringsNoByteCount = true) :
    (m.counting .codePoints).project selector =
      Stage.inCodePoints <$> (m.counting .bytes).project selector := by
  unfold project
  cases hl : selector.asUnaryLambda? with
  | none => rfl
  | some lambda =>
    obtain ⟨param, body⟩ := lambda
    have hbody := Expr.every_of_asUnaryLambda? h hl
    have hs := Scope.countsNoBytes_root param.name
    simp only [map_bind]
    refine bind_congr fun _ => ?_
    cases ho : body.asObject? with
    | some object =>
      obtain ⟨typeName, members⟩ := object
      obtain ⟨hmembers, hstores⟩ := names_of_asObject? hbody ho
      have helements := elements_projectedMembers (s := .root param.name) hstores
      simp only [projectedMembers_counting typeName hs fun p hp => (hmembers p hp).2, bind_map_left]
      cases hp : (m.counting .bytes).projectedMembers typeName members (.root param.name) with
      | error e => rfl
      | ok projected =>
        have hkeys : ∀ k ∈ Document.keys
            (Document.ofFields (projected.map fun (element, v, _) => (element, v))),
            StringUnit.inCodePoints k = k := by
          intro k hk
          have hk := Document.mem_keys_ofFields.1 hk
          simp only [Document.keys, List.map_map, List.mem_map] at hk
          obtain ⟨p, hp', rfl⟩ := hk
          exact helements.of_ok hp p hp'
        refine congrArg Except.ok ?_
        rw [Stage.inCodePoints, mapFieldKeys_withoutId hkeys, ← Document.ofFields_mapValues]
        simp only [Document.mapValues, List.map_map]
        rfl
    | none =>
      simp only [operandOf_counting m body.strip hs (Expr.every_strip hbody), bind_map_left,
        map_bind, map_pure]
      refine bind_congr fun v => congrArg Except.ok ?_
      have hkeys : ∀ k ∈ Document.keys [(Stage.valueName, stageMember v)],
          StringUnit.inCodePoints k = k := by
        intro k hk
        cases List.mem_singleton.1 hk
        rfl
      rw [Stage.inCodePoints, mapFieldKeys_withoutId hkeys]
      simp only [Document.mapValues, List.map_cons, List.map_nil, inCodePoints_stageMember]

/-! ## Groups -/

theorem perDocument_counting (node : Expr) {lambda : Expr}
    (h : lambda.every m.bringsNoByteCount = true) :
    (m.counting .codePoints).perDocument node lambda =
      Value.inCodePoints <$> (m.counting .bytes).perDocument node lambda := by
  unfold perDocument
  split
  · rfl
  · rename_i param body hl
    exact operandOf_counting m body (Scope.countsNoBytes_root _) (Expr.every_of_asUnaryLambda? h hl)

/-- What a selection from a group brings in, if there is one. -/
def SourceCountable (m : Mapping) : GroupSource → Prop
  | .documents => True
  | .selected selector => selector.every m.bringsNoByteCount = true

theorem sourceCountable_of_groupSource? {e : Expr} {group : String} {source : GroupSource}
    (h : e.every m.bringsNoByteCount = true) (hs : e.groupSource? group = some source) :
    m.SourceCountable source := by
  have hstrip := Expr.every_strip h
  unfold Expr.groupSource? at hs
  split at hs
  · cases hs
    trivial
  · split at hs
    · rename_i inner selector he
      split at hs
      · cases hs
        simp only [he, Expr.every, Expr.everyOf, Bool.and_eq_true] at hstrip
        exact hstrip.2.1
      · cases hs
    · cases hs

theorem accumulated_counting {node : Expr} {source : GroupSource} (h : m.SourceCountable source) :
    (m.counting .codePoints).accumulated node source =
      Value.inCodePoints <$> (m.counting .bytes).accumulated node source := by
  cases source with
  | documents => rfl
  | selected selector => exact perDocument_counting node h

theorem accumulateNoArg_counting {node : Expr} {source : GroupSource}
    (h : m.SourceCountable source) (method : String) :
    (m.counting .codePoints).accumulateNoArg node source method =
      Value.inCodePoints <$> (m.counting .bytes).accumulateNoArg node source method := by
  unfold accumulateNoArg
  rw [accumulated_counting h]
  split
  · rename_i which _
    have hwhich : countsBytes which.accumulator = false := by cases which <;> rfl
    rw [map_op hwhich]
  · split
    case h_8 => rfl
    case h_1 => rfl
    case h_2 => rfl
    all_goals rw [map_op rfl]

theorem accumulatorCall_counting {node : Expr} {source : GroupSource}
    (h : m.SourceCountable source) (method : String) {args : List Expr}
    (ha : ∀ a ∈ args, a.every m.bringsNoByteCount = true) :
    (m.counting .codePoints).accumulatorCall node source method args =
      Value.inCodePoints <$> (m.counting .bytes).accumulatorCall node source method args := by
  unfold accumulatorCall
  split
  · rename_i reducer _
    have hreducer : countsBytes reducer.operator = false := by cases reducer <;> rfl
    split
    · rw [perDocument_counting node h, map_op hreducer]
    · rw [perDocument_counting node (ha _ (by simp)), map_op hreducer]
    · rfl
  · split
    · exact accumulateNoArg_counting h method
    · rename_i arg
      have harg := perDocument_counting node (ha arg (by simp))
      split
      · simp (disch := decide) only [harg, bind_map_left, map_bind, map_pure,
          Value.inCodePoints_op, Value.inCodePoints_opAll, List.map_cons, List.map_nil,
          Value.inCodePoints_int32]
      · simp (disch := decide) only [harg, bind_map_left, map_bind, map_pure,
          Value.inCodePoints_op, Value.inCodePoints_opAll, List.map_cons, List.map_nil,
          Value.inCodePoints_int32]
      · rw [harg, map_op rfl]
      · rfl
    · rfl

/-- A chain of members brings in nothing. -/
theorem every_chain (path : List String) {e : Expr} (h : e.every m.bringsNoByteCount = true) :
    (path.foldl Expr.member e).every m.bringsNoByteCount = true := by
  induction path generalizing e with
  | nil => exact h
  | cons name rest ih =>
    refine ih ?_
    simp only [Expr.every, Bool.and_eq_true]
    exact ⟨rfl, h⟩

theorem endMemberAccumulator_counting (node : Expr) (group : Param) :
    (m.counting .codePoints).endMemberAccumulator node group =
      Value.inCodePoints <$> (m.counting .bytes).endMemberAccumulator node group := by
  unfold endMemberAccumulator
  split
  · rename_i path _
    split
    · rename_i which _
      have hwhich : countsBytes which.accumulator = false := by cases which <;> rfl
      split
      · dsimp only
        rw [operandOf_counting m _ (Scope.countsNoBytes_root _) (every_chain path rfl),
          map_op hwhich]
      · rfl
    · rfl
  · rfl

theorem sourceAccumulator_counting {node target : Expr} (method : String) {args : List Expr}
    {group : Param} (ht : target.every m.bringsNoByteCount = true)
    (ha : ∀ a ∈ args, a.every m.bringsNoByteCount = true) :
    (m.counting .codePoints).sourceAccumulator node target method args group =
      Value.inCodePoints <$>
        (m.counting .bytes).sourceAccumulator node target method args group := by
  unfold sourceAccumulator
  split
  · rename_i source hs
    exact accumulatorCall_counting (sourceCountable_of_groupSource? ht hs) method ha
  · rfl

theorem accumulator_counting {node : Expr} {group : Param}
    (h : node.every m.bringsNoByteCount = true) :
    (m.counting .codePoints).accumulator node group =
      Value.inCodePoints <$> (m.counting .bytes).accumulator node group := by
  have hstrip := Expr.every_strip h
  unfold accumulator
  split
  · split <;> rfl
  · rename_i owner method args hn
    rw [hn] at hstrip
    split
    · rename_i target method args hc
      have hcall := Expr.every_of_receiverForm? hstrip hc
        (bringsNo_receiverForm? (Expr.every_self hstrip) hc)
      simp only [Expr.every, Bool.and_eq_true] at hcall
      exact sourceAccumulator_counting method hcall.1.2 fun a ha => Expr.every_of_mem hcall.2 ha
    · rfl
  · rename_i target method args hn
    simp only [hn, Expr.every, Bool.and_eq_true] at hstrip
    exact sourceAccumulator_counting method hstrip.1.2 fun a ha => Expr.every_of_mem hstrip.2 ha
  · rename_i kind items rest hn
    simp only [hn, Expr.every, Bool.and_eq_true] at hstrip
    split
    · rename_i source hs
      have hkind : countsBytes (if kind = .hashSet then "$addToSet" else "$push") = false := by
        split <;> rfl
      rw [accumulated_counting (sourceCountable_of_groupSource? hstrip.1.2 hs), map_op hkind]
    · rfl
  · exact endMemberAccumulator_counting node group
  · rfl

/-- A result of a group, over a stage with the operators replaced. -/
theorem groupMember_counting {group : Param} (stage : Document) (name : String) {e : Expr}
    (h : e.every m.bringsNoByteCount = true) :
    (m.counting .codePoints).groupMember group (stage.mapValues Value.inCodePoints) name e =
      Prod.map id (Document.mapValues Value.inCodePoints) <$>
        (m.counting .bytes).groupMember group stage name e := by
  unfold groupMember
  split
  · rfl
  · split
    · rfl
    · simp only [accumulator_counting h, bind_map_left, map_bind, map_pure,
        Document.insert_mapValues, Prod.map_apply, id_eq]

theorem groupMembers_counting {group : Param} (stage : Document) {members : List (String × Expr)}
    (h : ∀ p ∈ members, p.2.every m.bringsNoByteCount = true) :
    (m.counting .codePoints).groupMembers group (stage.mapValues Value.inCodePoints) members =
      Prod.map id (Document.mapValues Value.inCodePoints) <$>
        (m.counting .bytes).groupMembers group stage members := by
  induction members generalizing stage with
  | nil => rfl
  | cons p rest ih =>
    simp only [groupMembers, groupMember_counting stage p.1 (h p (by simp)), bind_map_left,
      map_bind, map_pure]
    refine bind_congr fun member => ?_
    simp only [Prod.map_snd, Prod.map_fst, id_eq,
      ih member.2 fun q hq => h q (by simp [hq]), bind_map_left, Prod.map_apply]

/-- A result adds its own name to the stage only. -/
theorem keys_groupMember {group : Param} {stage : Document} {name : String} {e : Expr} :
    Post (fun r => ∀ k ∈ Document.keys r.2, k ∈ stage.keys ∨ k = name) (fun _ => True)
      (m.groupMember group stage name e) := by
  unfold groupMember
  split
  · exact fun k hk => .inl hk
  · split
    · trivial
    · refine Post.bind (Post.of_total _) fun v _ => ?_
      intro k hk
      exact (Document.mem_keys_insert.1 hk).symm

theorem keys_groupMembers {group : Param} {stage : Document} {members : List (String × Expr)} :
    Post (fun r => ∀ k ∈ Document.keys r.2, k ∈ stage.keys ∨ ∃ p ∈ members, k = p.1)
      (fun _ => True) (m.groupMembers group stage members) := by
  induction members generalizing stage with
  | nil => exact fun k hk => .inl hk
  | cons p rest ih =>
    refine Post.bind keys_groupMember fun member hmember => ?_
    refine Post.bind ih fun others hothers => ?_
    intro k hk
    rcases hothers k hk with hk | ⟨q, hq, rfl⟩
    · exact (hmember k hk).imp_right fun h => ⟨p, by simp, h⟩
    · exact .inr ⟨q, by simp [hq], rfl⟩

theorem stage_inCodePoints {body : Document} {shape : Shape}
    (h : ∀ k ∈ body.keys, StringUnit.inCodePoints k = k) :
    ({ body := body.mapValues Value.inCodePoints, shape := shape } : Stage) =
      Stage.inCodePoints { body := body, shape := shape } := by
  rw [Stage.inCodePoints, Document.mapFieldKeys_eq_mapValues h]
  rfl

/-- The group stage of a key and a selector in code points. -/
theorem group_counting {key selector : Expr} (hk : key.every m.bringsNoByteCount = true)
    (hsel : selector.every m.bringsNoByteCount = true) :
    (m.counting .codePoints).group key selector =
      Stage.inCodePoints <$> (m.counting .bytes).group key selector := by
  unfold group
  cases hkl : key.asUnaryLambda? with
  | none => rfl
  | some keyLambda =>
    cases hsl : selector.asUnaryLambda? with
    | none => rfl
    | some lambda =>
      obtain ⟨keyParam, keyBody⟩ := keyLambda
      obtain ⟨groupParam, body⟩ := lambda
      have hkeyBody := Expr.every_of_asUnaryLambda? hk hkl
      have hbody := Expr.every_of_asUnaryLambda? hsel hsl
      simp only [map_bind, bind_map_left,
        operandOf_counting m keyBody (Scope.countsNoBytes_root keyParam.name) hkeyBody]
      refine bind_congr fun _ => bind_congr fun _ => bind_congr fun v => ?_
      have hstage : [("_id", stageMember v.inCodePoints)] =
          Document.mapValues Value.inCodePoints [("_id", stageMember v)] := by
        simp only [Document.mapValues, List.map_cons, List.map_nil, inCodePoints_stageMember]
      rw [hstage]
      cases ho : body.asObject? with
      | some object =>
        obtain ⟨typeName, members⟩ := object
        obtain ⟨hmembers, -⟩ := names_of_asObject? hbody ho
        simp only [groupMembers_counting _ fun p hp => (hmembers p hp).2, bind_map_left]
        cases hg : (m.counting .bytes).groupMembers groupParam [("_id", stageMember v)] members with
        | error e => rfl
        | ok r =>
          refine congrArg Except.ok (stage_inCodePoints fun k hk' => ?_)
          rcases keys_groupMembers.of_ok hg k hk' with hk' | ⟨p, hp, rfl⟩
          · cases List.mem_singleton.1 hk'
            rfl
          · exact StringUnit.inCodePoints_eq_self (hmembers p hp).1
      | none =>
        simp only [groupMember_counting _ Stage.valueName (Expr.every_strip hbody), bind_map_left]
        cases hg : (m.counting .bytes).groupMember groupParam [("_id", stageMember v)]
            Stage.valueName body.strip with
        | error e => rfl
        | ok r =>
          refine congrArg Except.ok (stage_inCodePoints fun k hk' => ?_)
          rcases keys_groupMember.of_ok hg k hk' with hk' | rfl
          · cases List.mem_singleton.1 hk'
            rfl
          · rfl

/-! ## Filters and fields to return -/

/-- A filter counts nothing. -/
theorem filter_counting (m : Mapping) (unit : StringUnit) (predicate : Expr) :
    (m.counting unit).filter predicate = m.filter predicate := by
  have hnode (sub : Expr → Scope → Result Document) :
      (m.counting unit).filterNode sub = m.filterNode sub := rfl
  have hwithin (n : Nat) : (m.counting unit).filterWithin n = m.filterWithin n := by
    induction n with
    | zero => rfl
    | succ n ih =>
      funext e s
      rw [filterWithin, filterWithin, ih, hnode]
  unfold filter
  simp only [filterOf, hwithin]

/-- The fields to return count nothing. -/
theorem inclusion?_counting (m : Mapping) (unit : StringUnit) (selector : Expr) :
    (m.counting unit).inclusion? selector = m.inclusion? selector := rfl

/-- **The unit of strings only renames operators.** Let no constant as it is written, no member or
element of a new object and no parameter for the result of a fold bring the name of an operator that
counts bytes into a stage. Then a stage in code points is the stage in bytes with those operators
replaced: there is one exactly if there is the other, with the same cause of failure if there is
none, and with the same shape. Filters and the fields to return are the same for every
expression. -/
theorem counting_codePoints (m : Mapping) :
    (∀ selector : Expr, selector.every m.bringsNoByteCount = true →
      (m.counting .codePoints).project selector =
        Stage.inCodePoints <$> (m.counting .bytes).project selector) ∧
    (∀ key selector : Expr, key.every m.bringsNoByteCount = true →
      selector.every m.bringsNoByteCount = true →
      (m.counting .codePoints).group key selector =
        Stage.inCodePoints <$> (m.counting .bytes).group key selector) ∧
    (∀ predicate : Expr,
      (m.counting .codePoints).filter predicate = (m.counting .bytes).filter predicate) ∧
    (∀ selector : Expr,
      (m.counting .codePoints).inclusion? selector = (m.counting .bytes).inclusion? selector) := by
  refine ⟨fun _ => project_counting, fun _ _ => group_counting, fun predicate => ?_,
    fun selector => ?_⟩
  · rw [filter_counting, filter_counting]
  · rw [inclusion?_counting, inclusion?_counting]

/-- Books with a title and their numbers of pages by chapter, and a note whose text is stored under
the name of an operator. -/
def libraryMapping : Mapping :=
  { schema := { documents := [
      { name := "Book", members := [⟨"Title", "Title", .string, .natural⟩,
        ⟨"Pages", "Pages", .array .int32, .natural⟩,
        ⟨"Note", "Note", .document "Note", .natural⟩] },
      { name := "Note", members := [⟨"Text", "$substr", .string, .natural⟩] }] } }

/-- `x.M` for a book `x`. -/
def ofBook (name : String) : Expr := .member (.param ⟨"x", .document "Book"⟩) name

/-- `x => new { Rest = x.Title.Substring(1) }`. -/
def restOfTitle : Expr :=
  .lambda [⟨"x", .document "Book"⟩] (.object none
    [("Rest", .call (ofBook "Title") "Substring" [.literal ⟨.int32 1, .int32⟩])])

/-- The rest of a title is taken and its length counted in the same unit. -/
theorem counting_codePoints_restOfTitle :
    restOfTitle.every libraryMapping.bringsNoByteCount = true ∧
    ∃ stage, (libraryMapping.counting .bytes).project restOfTitle = .ok stage ∧
      (libraryMapping.counting .codePoints).project restOfTitle = .ok stage.inCodePoints ∧
      stage.inCodePoints.body = [("Rest", opAll "$substrCP" [.string "$Title", .int32 1,
        opAll "$subtract" [op "$strLenCP" (.string "$Title"), .int32 1]]), ("_id", .int32 0)] := by
  have hnames : restOfTitle.every libraryMapping.bringsNoByteCount = true := by decide
  refine ⟨hnames, _, rfl, ?_, ?_⟩
  · rw [(counting_codePoints libraryMapping).1 restOfTitle hnames]
    rfl
  · rfl

/-- `x => x.Pages.Aggregate(0, (a, i) => a + i, $substr => $substr)`. -/
def totalPages : Expr :=
  .lambda [⟨"x", .document "Book"⟩] (.call (ofBook "Pages") "Aggregate"
    [.literal ⟨.int32 0, .int32⟩,
     .lambda [⟨"a", .int32⟩, ⟨"i", .int32⟩]
       (.binary .add (.param ⟨"a", .int32⟩) (.param ⟨"i", .int32⟩)),
     .lambda [⟨"$substr", .int32⟩] (.param ⟨"$substr", .int32⟩)])

/-- `x => x.Note == { Text: "a" }`. -/
def hasNote : Expr :=
  .lambda [⟨"x", .document "Book"⟩] (.binary .equal (ofBook "Note")
    (.literal ⟨.document [("Text", .string "a")], .document "Note"⟩))

/-- A fold names its result by the parameter, and a constant that is compared has the elements of
the field. Both bring the name of an operator into a stage with no object and no constant key that
has it, and there it is not replaced. -/
theorem project_names_kept :
    (totalPages.every (fun e => e.nodeAvoids Filter.isOperator) = true ∧
      (libraryMapping.counting .codePoints).project totalPages ≠
        Stage.inCodePoints <$> (libraryMapping.counting .bytes).project totalPages) ∧
    hasNote.every (fun e => e.nodeAvoids Filter.isOperator) = true ∧
      (libraryMapping.counting .codePoints).project hasNote ≠
        Stage.inCodePoints <$> (libraryMapping.counting .bytes).project hasNote := by
  -- The fold and the constant have their stages in either unit.
  have htotal (unit : StringUnit) : (libraryMapping.counting unit).project totalPages =
      .ok ⟨[("value", op "$let" (.document
        [("vars", .single "$substr" (op "$reduce" (.document [("input", .string "$Pages"),
          ("initialValue", .int32 0),
          ("in", opAll "$add" [.string "$$value", .string "$$this"])]))),
         ("in", .string "$$$substr")])), ("_id", .int32 0)], .computed ["value"]⟩ := by
    cases unit <;> rfl
  have hnote (unit : StringUnit) : (libraryMapping.counting unit).project hasNote =
      .ok ⟨[("value", opAll "$eq" [.string "$Note", .single "$substr" (.string "a")]),
        ("_id", .int32 0)], .computed ["value"]⟩ := by
    cases unit <;> rfl
  refine ⟨⟨by decide, fun h => ?_⟩, by decide, fun h => ?_⟩
  · rw [htotal, htotal] at h
    have hbody := congrArg Stage.body (Except.ok.inj h)
    simp [Stage.inCodePoints, Value.mapFieldKeys, Value.mapKeys, op, Value.single,
      StringUnit.inCodePoints] at hbody
  · rw [hnote, hnote] at h
    have hbody := congrArg Stage.body (Except.ok.inj h)
    simp [Stage.inCodePoints, Value.mapFieldKeys, Value.mapItemKeys, Value.mapKeys,
      opAll, Value.single, StringUnit.inCodePoints] at hbody

end Mapping
end DocQuery
