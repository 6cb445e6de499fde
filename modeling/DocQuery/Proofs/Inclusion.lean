/-
Inclusions lose nothing: from the fields that the database returns for a
selector, the same value is read as from the whole document (`read_included`).

`keep` is what the database returns for paths: the fields that they lead to, in
the order of the document, taken in each document of an array, and without values
on the way that are no documents. What is read at a path is kept if the path, or
one that it continues, is among those kept (`lookUp_keep`). An inclusion lists for
each path that the selector reads one that it continues (`exists_mem_keptPaths`).
-/
import DocQuery.Inclusion
import DocQuery.Proofs.Document
import DocQuery.Proofs.Dotted
import DocQuery.Proofs.Result

namespace DocQuery

/-! ## What the database returns -/

/-- What comes after a name in the paths that start with it. -/
def tailsOf (key : String) (paths : List (List String)) : List (List String) :=
  paths.filterMap fun
    | k :: rest => if k = key then some rest else none
    | [] => none

mutual
/-- The fields of a document that paths lead to, in their order. The paths that start with a name
are for the first field of that name. -/
def keep (paths : List (List String)) : List (String × Value) → Document
  | [] => []
  | (k, v) :: rest =>
    let others := keep (paths.filter fun p => p.head? ≠ some k) rest
    match keepValue (tailsOf k paths) v with
    | some kept => (k, kept) :: others
    | none => others
/-- A value, whole if a path ends at it. -/
def keepValue (tails : List (List String)) : Value → Option Value
  | .document d =>
    if tails = [] then none
    else if tails.contains [] then some (.document d)
    else some (.document (keep tails d))
  | .array items =>
    if tails = [] then none
    else if tails.contains [] then some (.array items)
    else some (.array (keepItems tails items))
  | v => if tails.contains [] then some v else none
def keepItems (tails : List (List String)) : List Value → List Value
  | [] => []
  | .document d :: rest => .document (keep tails d) :: keepItems tails rest
  | .array items :: rest => .array (keepItems tails items) :: keepItems tails rest
  | _ :: rest => keepItems tails rest
end

/-- Whether a listed field is left out. -/
def isExcluded : Value → Bool
  | .int32 n => n = 0
  | _ => false

/-- The paths that the database keeps for listed fields: those listed, and the identifier unless
it is left out. -/
def keptPaths (fields : Document) : List (List String) :=
  let listed := (fields.filter fun (_, v) => !isExcluded v).map fun (name, _) => steps name
  if (fields.get? "_id").any isExcluded then listed else ["_id"] :: listed

/-- What the database returns of a document for listed fields. -/
def included (fields d : Document) : Document := keep (keptPaths fields) d

theorem mem_tailsOf {key : String} {paths : List (List String)} {rest : List String} :
    rest ∈ tailsOf key paths ↔ key :: rest ∈ paths := by
  simp only [tailsOf, List.mem_filterMap]
  constructor
  · rintro ⟨p, hp, h⟩
    cases p with
    | nil => cases h
    | cons k tail =>
      by_cases hk : k = key
      · subst hk
        simp only [if_true, Option.some.injEq] at h
        exact h ▸ hp
      · simp [hk] at h
  · intro h
    exact ⟨_, h, by simp⟩

theorem tailsOf_filter_self (key : String) (paths : List (List String)) :
    tailsOf key (paths.filter fun p => p.head? ≠ some key) = [] := by
  rw [List.eq_nil_iff_forall_not_mem]
  intro rest hrest
  rw [mem_tailsOf, List.mem_filter] at hrest
  simp at hrest

theorem tailsOf_filter_of_ne {key k : String} (h : k ≠ key) (paths : List (List String)) :
    tailsOf key (paths.filter fun p => p.head? ≠ some k) = tailsOf key paths := by
  rw [tailsOf, List.filterMap_filter, tailsOf]
  congr 1
  funext p
  cases p with
  | nil => rfl
  | cons k' rest =>
    by_cases hk : k' = k
    · subst hk
      simp [h]
    · simp [hk]

theorem keepValue_nil (v : Value) : keepValue [] v = none := by
  cases v <;> simp [keepValue]

/-- What a kept document has under a name. -/
theorem get?_keep (paths : List (List String)) (d : Document) (key : String) :
    (keep paths d).get? key = (d.get? key).bind (keepValue (tailsOf key paths)) := by
  induction d generalizing paths with
  | nil => simp [keep, Document.get?]
  | cons e rest ih =>
    obtain ⟨k, v⟩ := e
    have hothers := ih (paths.filter fun p => p.head? ≠ some k)
    by_cases hk : k = key
    · subst hk
      rw [tailsOf_filter_self] at hothers
      have hnone : (keep (paths.filter fun p => p.head? ≠ some k) rest).get? k = none := by
        rw [hothers, funext keepValue_nil]
        cases Document.get? rest k <;> rfl
      simp only [keep, Document.get?, if_true, Option.bind_some]
      cases keepValue (tailsOf k paths) v with
      | none => exact hnone
      | some kept => simp [Document.get?]
    · rw [tailsOf_filter_of_ne hk] at hothers
      simp only [keep, Document.get?, hk, if_false]
      cases keepValue (tailsOf k paths) v with
      | none => exact hothers
      | some kept => simpa [Document.get?, hk] using hothers

/-! ## Reading what is kept -/

theorem lookUp_congr {d d' : Document} {k : String} (h : d'.get? k = d.get? k)
    (throughArrays : Bool) (rest : List String) :
    Shape.lookUp throughArrays (k :: rest) d' = Shape.lookUp throughArrays (k :: rest) d := by
  simp only [Shape.lookUp, h]

/-- What is read of each document in an array is read of the kept ones too, if nothing else is in
the array. -/
theorem mapM_keepItems {f : Value → Result Value} {tails : List (List String)}
    (hdoc : ∀ d v, f (.document d) = .ok v → f (.document (keep tails d)) = .ok v)
    (hother : ∀ x v, f x = .ok v → ∃ d, x = .document d) {items : List Value}
    {values : List Value} (h : items.mapM f = .ok values) :
    (keepItems tails items).mapM f = .ok values := by
  induction items generalizing values with
  | nil => exact h
  | cons x rest ih =>
    rw [List.mapM_cons] at h
    obtain ⟨v, hv, hrest⟩ := bind_eq_ok.1 h
    obtain ⟨vs, hvs, hvalues⟩ := bind_eq_ok.1 hrest
    obtain ⟨d, rfl⟩ := hother x v hv
    rw [keepItems, List.mapM_cons, hdoc d v hv, ih hvs]
    exact hvalues

/-- **What is read at a path is kept** if a path that it continues is. -/
theorem lookUp_keep {path : List String} {paths : List (List String)} {d : Document} {v : Value}
    (h : ∃ q ∈ paths, q ≠ [] ∧ q <+: path) (hv : Shape.lookUp true path d = .ok v) :
    Shape.lookUp true path (keep paths d) = .ok v := by
  induction path generalizing paths d v with
  | nil =>
    obtain ⟨q, -, hne, hq⟩ := h
    exact absurd (List.prefix_nil.1 hq) hne
  | cons k rest ih =>
    obtain ⟨q, hmem, hne, hq⟩ := h
    obtain ⟨j, tail, rfl⟩ := List.exists_cons_of_ne_nil hne
    obtain ⟨rfl, htail⟩ := List.cons_prefix_cons.1 hq
    rw [← mem_tailsOf] at hmem
    have hget := get?_keep paths d j
    cases hx : d.get? j with
    | none =>
      rw [hx] at hget
      rw [lookUp_congr (hget.trans hx.symm), hv]
    | some x =>
      rw [hx] at hget
      by_cases hwhole : [] ∈ tailsOf j paths
      · -- The value is kept whole.
        have hkept : keepValue (tailsOf j paths) x = some x := by
          have hne := List.ne_nil_of_mem hwhole
          cases x <;> simp [keepValue, hwhole, hne]
        rw [lookUp_congr ((hget.trans hkept).trans hx.symm), hv]
      · have htails : tailsOf j paths ≠ [] := List.ne_nil_of_mem hmem
        have hnil : tail ≠ [] := fun hnil => hwhole (hnil ▸ hmem)
        have hrest : rest ≠ [] := by
          rintro rfl
          exact hnil (List.prefix_nil.1 htail)
        have hbelow {d : Document} {v : Value} (hv : Shape.lookUp true rest d = .ok v) :=
          ih ⟨tail, hmem, hnil, htail⟩ hv
        cases x with
        | null =>
          simp only [Shape.lookUp, hx] at hv
          simpa [Shape.lookUp, hget, keepValue, hwhole] using hv
        | document nested =>
          simp only [Shape.lookUp, hx, List.isEmpty_iff, hrest, if_false] at hv
          simpa [Shape.lookUp, hget, keepValue, hwhole, htails, hrest] using hbelow hv
        | array items =>
          simp only [Shape.lookUp, hx, List.isEmpty_iff, hrest, if_false] at hv
          obtain ⟨values, hvalues, hv⟩ := bind_eq_ok.1 hv
          simp only [Shape.lookUp, hget, Option.bind_some, keepValue, htails, List.contains_iff_mem,
            hwhole, if_false, List.isEmpty_iff, hrest]
          refine bind_eq_ok.2 ⟨values, mapM_keepItems (fun d v => hbelow) ?_ hvalues, hv⟩
          intro x v hx
          cases x with
          | document d => exact ⟨d, rfl⟩
          | _ => cases hx
        | _ => simp [Shape.lookUp, hx, hrest] at hv

/-! ## What is listed -/

namespace Inclusion

/-- Every path continues one that no other covers. -/
theorem exists_not_covered {paths : List (List String)} (path : List String) (h : path ∈ paths) :
    ∃ q ∈ paths, q <+: path ∧ covered paths q = false := by
  by_cases hcovered : covered paths path = true
  · obtain ⟨other, hmem, hother⟩ := List.any_eq_true.1 hcovered
    simp only [Bool.and_eq_true, decide_eq_true_eq, List.isPrefixOf_iff_prefix] at hother
    have hshorter := hother.1
    obtain ⟨q, hq, hprefix, hnone⟩ := exists_not_covered other hmem
    exact ⟨q, hq, hprefix.trans hother.2, hnone⟩
  · exact ⟨path, h, List.prefix_refl _, by simpa using hcovered⟩
termination_by path.length

/-- A path that no other covers is listed under its name. -/
theorem mem_fieldsOf {paths : List (List String)} {path : List String} (h : path ∈ paths)
    (hne : path ≠ []) (hdots : ∀ k ∈ path, '.' ∉ k.toList) (hcovered : covered paths path = false) :
    (String.intercalate "." path, .int32 1) ∈ fieldsOf paths := by
  have hlisted (fields : Document) (hfields : ∀ e ∈ fields, e.2 = .int32 1)
      (hmem : String.intercalate "." path ∈ fields.keys) :
      (String.intercalate "." path, .int32 1) ∈ Document.ofFields fields := by
    obtain ⟨⟨k, x⟩, he, hk⟩ := List.mem_map.1 (Document.mem_keys_ofFields.2 hmem)
    have hx := hfields _ (Document.mem_of_mem_ofFields he)
    simp only at hx hk
    rw [← hk, ← hx]
    exact he
  have hincluded : (String.intercalate "." path, .int32 1) ∈
      Document.ofFields ((paths.filter fun p => !covered paths p).map fun p =>
        (String.intercalate "." p, Value.int32 1)) := by
    refine hlisted _ ?_ ?_
    · intro e he
      obtain ⟨p, -, rfl⟩ := List.mem_map.1 he
      rfl
    · simp only [Document.keys, List.map_map, List.mem_map, List.mem_filter, Function.comp_apply]
      exact ⟨path, ⟨h, by simp [hcovered]⟩, rfl⟩
  unfold fieldsOf
  dsimp only
  split
  · exact hincluded
  · rename_i hid
    refine Document.mem_insert_of_ne ?_ hincluded _
    -- A path with the name of the identifier starts with it.
    intro (hname : String.intercalate "." path = "_id")
    have hsteps := steps_intercalate hne hdots
    rw [hname] at hsteps
    have hhead : path.head? = some "_id" := by rw [← hsteps]; rfl
    exact hid (List.any_eq_true.2 ⟨path, h, by simp [hhead]⟩)

end Inclusion

/-- For every path that is read, one that it continues is kept. -/
theorem exists_mem_keptPaths {paths : List (List String)} (hne : ∀ p ∈ paths, p ≠ [])
    (hdots : ∀ p ∈ paths, ∀ k ∈ p, '.' ∉ k.toList) {path : List String} (h : path ∈ paths) :
    ∃ q ∈ keptPaths (Inclusion.fieldsOf paths), q ≠ [] ∧ q <+: path := by
  obtain ⟨q, hq, hprefix, hcovered⟩ := Inclusion.exists_not_covered path h
  refine ⟨q, ?_, hne q hq, hprefix⟩
  have hlisted := Inclusion.mem_fieldsOf hq (hne q hq) (hdots q hq) hcovered
  have hmem : q ∈ ((Inclusion.fieldsOf paths).filter fun (_, v) => !isExcluded v).map
      fun (name, _) => steps name := by
    refine List.mem_map.2 ⟨_, List.mem_filter.2 ⟨hlisted, rfl⟩, ?_⟩
    exact steps_intercalate (hne q hq) (hdots q hq)
  unfold keptPaths
  dsimp only
  split
  · exact hmem
  · exact List.mem_cons_of_mem _ hmem

/-! ## Shapes of copied fields -/

namespace Shape

mutual
/-- The paths of the stored fields in a shape. -/
def paths : Shape → List (List String)
  | .field path => [path]
  | .object members => memberPaths members
  | _ => []
def memberPaths : List (String × Shape) → List (List String)
  | [] => []
  | (_, m) :: rest => m.paths ++ memberPaths rest
end

mutual
/-- Whether a shape is put together from stored fields and whole documents. -/
def isCopied : Shape → Bool
  | .identity => true
  | .field path => !path.isEmpty
  | .object members => areCopied members
  | _ => false
def areCopied : List (String × Shape) → Bool
  | [] => true
  | (_, m) :: rest => m.isCopied && areCopied rest
end

mutual
theorem ne_nil_of_mem_paths : ∀ {shape : Shape}, shape.isCopied = true → ∀ p ∈ shape.paths, p ≠ []
  | .identity, _ => by simp [paths]
  | .field path, h => by simpa [paths, isCopied] using h
  | .object members, h => ne_nil_of_mem_memberPaths h
  | .computed _, h | .key _, h => nomatch h
theorem ne_nil_of_mem_memberPaths : ∀ {members : List (String × Shape)},
    areCopied members = true → ∀ p ∈ memberPaths members, p ≠ []
  | [], _ => by simp [memberPaths]
  | (_, m) :: rest, h => by
    simp only [areCopied, Bool.and_eq_true] at h
    intro p hp
    rcases List.mem_append.1 hp with hp | hp
    · exact ne_nil_of_mem_paths h.1 p hp
    · exact ne_nil_of_mem_memberPaths h.2 p hp
end

variable {d d' : Document}

mutual
/-- A document in which every field of a shape reads the same gives the same value. -/
theorem read_of_lookUp : ∀ {shape : Shape} {v : Value}, shape.isCopied = true →
    shape.hasIdentity = false →
    (∀ p ∈ shape.paths, ∀ v, lookUp true p d = .ok v → lookUp true p d' = .ok v) →
    shape.read d = .ok v → shape.read d' = .ok v
  | .field path, v, _, _, h, hv => h path (by simp [paths]) v hv
  | .object members, v, hc, hi, h, hv => by
    obtain ⟨vs, hvs, hv⟩ := bind_eq_ok.1 hv
    rw [read, readMembers_of_lookUp hc hi h hvs]
    exact hv
  | .identity, _, _, hi, _, _ => nomatch hi
  | .computed _, _, hc, _, _, _ | .key _, _, hc, _, _, _ => nomatch hc
theorem readMembers_of_lookUp : ∀ {members : List (String × Shape)} {vs : List (String × Value)},
    areCopied members = true → anyIdentity members = false →
    (∀ p ∈ memberPaths members, ∀ v, lookUp true p d = .ok v → lookUp true p d' = .ok v) →
    readMembers members d = .ok vs → readMembers members d' = .ok vs
  | [], _, _, _, _, hv => hv
  | (name, m) :: rest, vs, hc, hi, h, hv => by
    simp only [areCopied, Bool.and_eq_true] at hc
    simp only [anyIdentity, Bool.or_eq_false_iff] at hi
    obtain ⟨v, hm, hv⟩ := bind_eq_ok.1 hv
    obtain ⟨ws, hrest, hv⟩ := bind_eq_ok.1 hv
    rw [readMembers, read_of_lookUp hc.1 hi.1 (fun p hp => h p (List.mem_append_left _ hp)) hm,
      readMembers_of_lookUp hc.2 hi.2 (fun p hp => h p (List.mem_append_right _ hp)) hrest]
    exact hv
end

end Shape

namespace Schema

variable {schema : Schema} {param : String}

/-- A shape of copied fields, whose paths are those that were added. -/
def Adds (paths : List (List String)) (r : Option Shape × List (List String)) : Prop :=
  ∀ shape ∈ r.1, shape.isCopied = true ∧ ∀ p, p ∈ r.2 ↔ p ∈ paths ∨ p ∈ shape.paths

theorem mem_addPath {paths : List (List String)} {path p : List String} :
    p ∈ addPath paths path ↔ p ∈ paths ∨ p = path := by
  unfold addPath
  split
  · rename_i hmem
    constructor
    · exact .inl
    · rintro (h | rfl)
      · exact h
      · exact hmem
  · simp

theorem post_copiedField (paths : List (List String)) (e : Expr) :
    Post (Adds paths) (fun _ => True) (schema.copiedField param paths e) := by
  refine Post.bind (Post.of_total (schema.fieldPath? e)) fun o _ => ?_
  cases o with
  | none => simp [Adds]
  | some f =>
    dsimp only
    split
    · simp [Adds]
    · split
      · simp [Adds, Shape.isCopied, Shape.paths]
      · rename_i hne
        simp [Adds, Shape.isCopied, Shape.paths, mem_addPath, hne]

mutual
theorem post_copied : ∀ (e : Expr) (paths : List (List String)),
    Post (Adds paths) (fun _ => True) (schema.copied param paths e)
  | .quote inner, paths => post_copied inner paths
  | .convert operand _, paths => post_copied operand paths
  | .object _ members, paths => by
    refine Post.bind (post_copiedMembers members paths) fun r hr => ?_
    obtain ⟨shapes, paths'⟩ := r
    cases shapes with
    | none => simp [Adds]
    | some shapes => simpa [Adds, Shape.isCopied, Shape.paths] using hr
  | .literal _, paths | .param _, paths | .member .., paths | .call .., paths
  | .staticCall .., paths | .index .., paths | .not _, paths | .negate _, paths
  | .binary .., paths | .conditional .., paths | .collection .., paths
  | .lambda .., paths | .typeTest .., paths | .inject _, paths => post_copiedField paths _
theorem post_copiedMembers : ∀ (members : List (String × Expr)) (paths : List (List String)),
    Post (fun r => ∀ shapes ∈ r.1, Shape.areCopied shapes = true ∧
      ∀ p, p ∈ r.2 ↔ p ∈ paths ∨ p ∈ Shape.memberPaths shapes) (fun _ => True)
      (schema.copiedMembers param paths members)
  | [], paths => by simp [copiedMembers, Shape.areCopied, Shape.memberPaths]
  | (name, e) :: rest, paths => by
    refine Post.bind (post_copied e paths) fun r hr => ?_
    obtain ⟨shape, paths'⟩ := r
    cases shape with
    | none => simp
    | some shape =>
      obtain ⟨hshape, hpaths⟩ := hr shape rfl
      refine Post.bind (post_copiedMembers rest paths') fun r hr => ?_
      obtain ⟨shapes, paths''⟩ := r
      cases shapes with
      | none => simp
      | some shapes =>
        obtain ⟨hshapes, hpaths'⟩ := hr shapes rfl
        simp only [post_pure, Option.map_some, Option.mem_def, Option.some.injEq, forall_eq']
        refine ⟨by simp [Shape.areCopied, hshape, hshapes], fun p => ?_⟩
        rw [hpaths', hpaths, Shape.memberPaths, List.mem_append, or_assoc]
end

end Schema

namespace Mapping

/-- An inclusion is made of the shape of copied fields without whole documents, and of the paths
that were collected for it. -/
theorem copied_of_inclusion? {m : Mapping} {selector : Expr} {inclusion : Inclusion}
    (h : m.inclusion? selector = .ok (some inclusion)) :
    ∃ param body paths, m.schema.copied param [] body = .ok (some inclusion.shape, paths) ∧
      inclusion.shape.hasIdentity = false ∧ inclusion.fields = Inclusion.fieldsOf paths := by
  unfold inclusion? at h
  split at h
  · cases h
  · rename_i param body _
    obtain ⟨-, -, h⟩ := bind_eq_ok.1 h
    obtain ⟨⟨shape, paths⟩, hcopied, h⟩ := bind_eq_ok.1 h
    simp only [pure, Except.pure, Except.ok.injEq, Option.map_eq_some_iff,
      Option.filter_eq_some_iff] at h
    obtain ⟨shape, ⟨rfl, hidentity⟩, rfl⟩ := h
    exact ⟨param.name, body, paths, hcopied, by simpa using hidentity, rfl⟩

/-- **Inclusions lose nothing.** What the shape of a selector reads in a document it reads in what
the database returns of it, if no step of the paths that it reads has a dot in it. -/
theorem read_included {m : Mapping} {selector : Expr} {inclusion : Inclusion}
    (h : m.inclusion? selector = .ok (some inclusion))
    (hdots : ∀ path ∈ inclusion.shape.paths, ∀ k ∈ path, '.' ∉ k.toList) {d : Document} {v : Value}
    (hv : inclusion.shape.read d = .ok v) :
    inclusion.shape.read (included inclusion.fields d) = .ok v := by
  obtain ⟨param, body, paths, hcopied, hidentity, hfields⟩ := copied_of_inclusion? h
  obtain ⟨hshape, hpaths⟩ := (Schema.post_copied body []).of_ok hcopied _ rfl
  have hmem (p : List String) : p ∈ paths ↔ p ∈ inclusion.shape.paths := by
    simpa using hpaths p
  have hne (p : List String) (hp : p ∈ paths) : p ≠ [] :=
    Shape.ne_nil_of_mem_paths hshape p ((hmem p).1 hp)
  have hdots' (p : List String) (hp : p ∈ paths) := hdots p ((hmem p).1 hp)
  rw [hfields]
  refine Shape.read_of_lookUp hshape hidentity (fun p hp v hv => ?_) hv
  exact lookUp_keep (exists_mem_keptPaths hne hdots' ((hmem p).2 hp)) hv

/-- Lists with a title and entries, each with a label and a rank. -/
def lists : Mapping where
  schema :=
    { documents :=
      [{ name := "List", members := [⟨"Title", "t", .string, .natural⟩,
          ⟨"Entries", "e", .array (.document "Entry"), .natural⟩] },
       { name := "Entry", members := [⟨"Label", "l", .string, .natural⟩,
          ⟨"Rank", "r", .int32, .natural⟩] }] }

/-- A member of every entry of a list. -/
def ofEntries (name : String) : Expr :=
  .call (.member (.param ⟨"x", .document "List"⟩) "Entries") "Select"
    [.lambda [⟨"i", .document "Entry"⟩] (.member (.param ⟨"i", .document "Entry"⟩) name)]

/-- The labels, the ranks and the title of a list. -/
def labelsAndRanks : Expr :=
  .lambda [⟨"x", .document "List"⟩] (.object none [("Labels", ofEntries "Label"),
    ("Ranks", ofEntries "Rank"), ("Title", .member (.param ⟨"x", .document "List"⟩) "Title")])

/-- The shape that reads labels, ranks and title. -/
def labelsAndRanksShape : Shape :=
  .object [("Labels", .field ["e", "l"]), ("Ranks", .field ["e", "r"]), ("Title", .field ["t"])]

/-- A list with two entries, the second without a rank. -/
def twoEntries : Document :=
  [("_id", .int32 7), ("e", .array [.document [("l", .string "a"), ("n", .null), ("r", .int32 1)],
    .document [("l", .string "b")]]), ("t", .string "T"), ("z", .bool true)]

/-- Two paths below one array are kept together, without the identifier and what is not read. -/
theorem read_included_twoEntries :
    ∃ inclusion, lists.inclusion? labelsAndRanks = .ok (some inclusion) ∧
      included inclusion.fields twoEntries =
        [("e", .array [.document [("l", .string "a"), ("r", .int32 1)],
          .document [("l", .string "b")]]), ("t", .string "T")] ∧
      inclusion.shape.read (included inclusion.fields twoEntries) =
        .ok (.document [("Labels", .array [.string "a", .string "b"]),
          ("Ranks", .array [.int32 1, .null]), ("Title", .string "T")]) := by
  have h : lists.inclusion? labelsAndRanks = .ok (some ⟨[("e.l", .int32 1), ("e.r", .int32 1),
      ("t", .int32 1), ("_id", .int32 0)], labelsAndRanksShape⟩) := rfl
  have hdots : ∀ path ∈ labelsAndRanksShape.paths, ∀ k ∈ path, '.' ∉ k.toList := by decide
  exact ⟨_, h, rfl, read_included h hdots rfl⟩

end Mapping
end DocQuery
