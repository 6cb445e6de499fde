/-
The hierarchy of document types.

Members and marks of a type are looked up along the chain of its bases. The chain is
cut at the number of registered types, which no chain without a cycle exceeds
(`le_of_ancestor?`), so a search that goes on for as long as there is a base comes to
an end, with the same result (`loop_names`, `loop_documents`). A type is assignable to
those on its chain (`isAssignable_iff`). That is an order, and look-ups respect it
(`hierarchy_of_acyclic`).
-/
import DocQuery.Schema.Basic
import Mathlib.Data.List.Perm.Subperm

namespace DocQuery

/-! ## Searches -/

/-- A search from a state, if there is one: it ends with what is found there, or else goes on from
the next state. It may have no end. -/
inductive Loop {σ α : Type} (found? : σ → Option α) (next? : σ → Option σ) :
    Option σ → Option α → Prop
  | stop : Loop found? next? none none
  | found {x : σ} {a : α} (h : found? x = some a) : Loop found? next? (some x) (some a)
  | next {x : σ} {r : Option α} (h : found? x = none) (hrest : Loop found? next? (next? x) r) :
      Loop found? next? (some x) r

/-- A search has at most one result. -/
theorem Loop.unique {σ α : Type} {found? : σ → Option α} {next? : σ → Option σ} {start : Option σ}
    {r r' : Option α} (h : Loop found? next? start r) (h' : Loop found? next? start r') :
    r = r' := by
  induction h with
  | stop => cases h'; rfl
  | found hx =>
    cases h' with
    | found hx' => rw [← hx, ← hx']
    | next hx' => cases hx.symm.trans hx'
  | next hx _ ih =>
    cases h' with
    | found hx' => cases hx.symm.trans hx'
    | next _ hrest => exact ih hrest

namespace Schema

/-! ## Chains of bases -/

/-- The type that is so many bases up from another. -/
def ancestor? (s : Schema) : Nat → String → Option String
  | 0, name => some name
  | n + 1, name => (s.base? name).bind (s.ancestor? n)

/-- No type is one of its own bases. -/
def Acyclic (s : Schema) : Prop := ∀ name n, s.ancestor? (n + 1) name ≠ some name

variable {s : Schema} {name base : String} {n k : Nat}

theorem ancestor?_add (n k : Nat) (name : String) :
    s.ancestor? (n + k) name = (s.ancestor? n name).bind (s.ancestor? k) := by
  induction n generalizing name with
  | zero => simp [ancestor?]
  | succ n ih =>
    rw [Nat.succ_add, ancestor?, ancestor?]
    cases s.base? name with
    | none => rfl
    | some base => exact ih base

theorem mem_names_of_base? (h : s.base? name = some base) :
    name ∈ s.documents.map DocumentType.name := by
  obtain ⟨d, hd, -⟩ := Option.bind_eq_some_iff.1 h
  have hname : d.name = name := by simpa using List.find?_some hd
  exact hname ▸ List.mem_map_of_mem (List.mem_of_find?_eq_some hd)

/-- The types below one that is `n` bases up are `n` different ones, and all are registered. -/
theorem exists_nodup_of_ancestor? (hs : s.Acyclic) {top : String}
    (h : s.ancestor? n name = some top) :
    ∃ names : List String, names.length = n ∧ names.Nodup ∧
      ∀ x ∈ names, x ∈ s.documents.map DocumentType.name ∧ ∃ k, s.ancestor? k name = some x := by
  induction n generalizing name with
  | zero => exact ⟨[], rfl, List.nodup_nil, by simp⟩
  | succ n ih =>
    obtain ⟨base, hbase, h⟩ := Option.bind_eq_some_iff.1 h
    have hup (k : Nat) : s.ancestor? (k + 1) name = s.ancestor? k base := by simp [ancestor?, hbase]
    obtain ⟨names, hlength, hnodup, hnames⟩ := ih h
    refine ⟨name :: names, by simp [hlength], List.nodup_cons.2 ⟨fun hmem => ?_, hnodup⟩, ?_⟩
    · -- A type above its own base would be on a cycle.
      obtain ⟨-, k, hk⟩ := hnames name hmem
      exact hs name k ((hup k).trans hk)
    · intro x hx
      rcases List.mem_cons.1 hx with rfl | hx
      · exact ⟨mem_names_of_base? hbase, 0, rfl⟩
      · obtain ⟨hregistered, k, hk⟩ := hnames x hx
        exact ⟨hregistered, k + 1, (hup k).trans hk⟩

/-- A chain of bases without a cycle is no longer than the number of registered types. -/
theorem le_of_ancestor? (hs : s.Acyclic) {top : String} (h : s.ancestor? n name = some top) :
    n ≤ s.documents.length := by
  obtain ⟨names, hlength, hnodup, hnames⟩ := exists_nodup_of_ancestor? hs h
  have hle := (List.subperm_of_subset hnodup fun x hx => (hnames x hx).1).length_le
  rwa [hlength, List.length_map] at hle

theorem ancestor?_eq_none (hs : s.Acyclic) (name : String) :
    s.ancestor? (s.documents.length + 1) name = none := by
  cases h : s.ancestor? (s.documents.length + 1) name with
  | none => rfl
  | some top => exact absurd (le_of_ancestor? hs h) (Nat.not_succ_le_self _)

/-- Whether there is a cycle shows in chains of bounded length, from registered types. -/
theorem acyclic_iff : s.Acyclic ↔
    ∀ d ∈ s.documents, s.ancestor? (s.documents.length + 1) d.name = none := by
  refine ⟨fun hs d _ => ancestor?_eq_none hs d.name, fun h name n hcycle => ?_⟩
  -- A type on a cycle has bases without end.
  have hround (k : Nat) : s.ancestor? (k * (n + 1)) name = some name := by
    induction k with
    | zero => simp [ancestor?]
    | succ k ih => rw [Nat.succ_mul, ancestor?_add, ih, Option.bind_some, hcycle]
  have hlong : s.ancestor? (s.documents.length + 1) name ≠ none := by
    intro hnone
    have := hround (s.documents.length + 1)
    rw [Nat.mul_succ, Nat.add_comm, ancestor?_add, hnone] at this
    cases this
  obtain ⟨base, hbase, -⟩ := Option.bind_eq_some_iff.1 hcycle
  obtain ⟨d, hd, rfl⟩ := List.mem_map.1 (mem_names_of_base? hbase)
  exact hlong (h d hd)

instance : Decidable s.Acyclic := decidable_of_iff _ acyclic_iff.symm

/-! ## Look-ups along a chain -/

theorem mem_lineageUpTo {x : String} :
    x ∈ s.lineageUpTo n name ↔ ∃ k ≤ n, s.ancestor? k name = some x := by
  induction n generalizing name with
  | zero =>
    simp only [lineageUpTo, List.mem_singleton, Nat.le_zero, exists_eq_left, ancestor?,
      Option.some.injEq]
    exact eq_comm
  | succ n ih =>
    rw [lineageUpTo, List.mem_cons, ← Nat.or_exists_add_one]
    simp only [Nat.zero_le, true_and, ancestor?, Option.some.injEq, Nat.add_le_add_iff_right]
    refine or_congr eq_comm ?_
    cases s.base? name with
    | none => simp
    | some base => simpa using ih

/-- The types on the chain of another. -/
theorem mem_lineage (hs : s.Acyclic) {x : String} :
    x ∈ s.lineage name ↔ ∃ k, s.ancestor? k name = some x := by
  rw [lineage, mem_lineageUpTo]
  constructor
  · rintro ⟨k, -, hx⟩
    exact ⟨k, hx⟩
  · rintro ⟨k, hx⟩
    exact ⟨k, le_of_ancestor? hs hx, hx⟩

section Search
variable {α : Type}

theorem loop_lineageUpTo (found? : String → Option α) (h : s.ancestor? (n + 1) name = none) :
    Loop found? s.base? (some name) ((s.lineageUpTo n name).findSome? found?) := by
  induction n generalizing name with
  | zero =>
    have hbase : s.base? name = none := by simpa [ancestor?] using h
    cases hx : found? name with
    | some a => simpa [lineageUpTo, hx] using Loop.found hx
    | none => simpa [lineageUpTo, hx] using Loop.next hx (hbase ▸ Loop.stop)
  | succ n ih =>
    rw [lineageUpTo, List.findSome?_cons]
    cases hx : found? name with
    | some a => exact .found hx
    | none =>
      refine .next hx ?_
      cases hbase : s.base? name with
      | none => exact .stop
      | some base => exact ih (by simpa [ancestor?, hbase] using h)

/-- A search by names finds what the chain has. -/
theorem loop_names (hs : s.Acyclic) (found? : String → Option α) (name : String) (r : Option α) :
    Loop found? s.base? (some name) r ↔ r = (s.lineage name).findSome? found? := by
  have hend := loop_lineageUpTo found? (ancestor?_eq_none hs name)
  exact ⟨fun h => h.unique hend, fun h => h ▸ hend⟩

/-- A search by registered types is one by their names: what is not registered has no base. -/
theorem loop_of_names {found? : DocumentType → Option α} {r : Option α} {start : Option String}
    (h : Loop (fun name => (s.document? name).bind found?) s.base? start r) :
    Loop found? (fun d => d.base.bind s.document?) (start.bind s.document?) r := by
  induction h with
  | stop => exact .stop
  | @found name a hx =>
    obtain ⟨d, hd, hx⟩ := Option.bind_eq_some_iff.1 hx
    rw [Option.bind_some, hd]
    exact .found hx
  | @next name r hx hrest ih =>
    rw [Option.bind_some]
    unfold base? at hrest ih
    cases hd : s.document? name with
    | none =>
      rw [hd] at hrest
      cases hrest
      exact .stop
    | some d =>
      rw [hd] at hx ih
      exact .next hx ih

/-- A search by registered types finds what the chain has. -/
theorem loop_documents (hs : s.Acyclic) (found? : DocumentType → Option α) (name : String)
    (r : Option α) :
    Loop found? (fun d => d.base.bind s.document?) (s.document? name) r ↔
      r = (s.lineage name).findSome? fun name => (s.document? name).bind found? := by
  have hnames := (loop_names hs (fun name => (s.document? name).bind found?) name _).2 rfl
  have hend := loop_of_names hnames
  exact ⟨fun h => h.unique hend, fun h => h ▸ hend⟩

/-- What is found at the type that is `k` bases up, and at none before it. -/
def IsNearest (s : Schema) (found? : String → Option α) (name : String) (k : Nat) (a : α) : Prop :=
  (∃ owner, s.ancestor? k name = some owner ∧ found? owner = some a) ∧
    ∀ j < k, ∀ nearer, s.ancestor? j name = some nearer → found? nearer = none

variable {found? : String → Option α} {a : α}

theorem isNearest_zero : s.IsNearest found? name 0 a ↔ found? name = some a := by
  simp [IsNearest, ancestor?]

theorem isNearest_succ : s.IsNearest found? name (k + 1) a ↔
    found? name = none ∧ ∃ base, s.base? name = some base ∧ s.IsNearest found? base k a := by
  constructor
  · rintro ⟨⟨owner, howner, ha⟩, hnearer⟩
    obtain ⟨base, hbase, howner⟩ := Option.bind_eq_some_iff.1 howner
    refine ⟨hnearer 0 (by omega) name rfl, base, hbase, ⟨owner, howner, ha⟩, ?_⟩
    intro j hj nearer hup
    exact hnearer (j + 1) (by omega) nearer (by rw [ancestor?, hbase, Option.bind_some, hup])
  · rintro ⟨hname, base, hbase, ⟨owner, howner, ha⟩, hnearer⟩
    refine ⟨⟨owner, by rw [ancestor?, hbase, Option.bind_some, howner], ha⟩, ?_⟩
    intro j hj nearer hup
    cases j with
    | zero =>
      cases hup
      exact hname
    | succ j => exact hnearer j (by omega) nearer (by simpa [ancestor?, hbase] using hup)

theorem findSome?_lineageUpTo :
    (s.lineageUpTo n name).findSome? found? = some a ↔
      ∃ k ≤ n, s.IsNearest found? name k a := by
  induction n generalizing name with
  | zero => simp [lineageUpTo, isNearest_zero]
  | succ n ih =>
    rw [lineageUpTo, List.findSome?_cons, ← Nat.or_exists_add_one]
    simp only [Nat.zero_le, true_and, isNearest_zero, isNearest_succ, Nat.add_le_add_iff_right]
    cases found? name with
    | some b => simp
    | none =>
      cases s.base? name with
      | none => simp
      | some base => simpa using ih

/-- What is found on a chain is what the nearest type has that has something. -/
theorem findSome?_lineage (hs : s.Acyclic) :
    (s.lineage name).findSome? found? = some a ↔ ∃ k, s.IsNearest found? name k a := by
  rw [lineage, findSome?_lineageUpTo]
  constructor
  · rintro ⟨k, -, h⟩
    exact ⟨k, h⟩
  · rintro ⟨k, h⟩
    obtain ⟨owner, howner, -⟩ := h.1
    exact ⟨k, le_of_ancestor? hs howner, h⟩

end Search

/-! ## The order of types -/

section Order
variable {a b c nominal actual : String}

/-- A type is assignable to those on its chain. -/
theorem isAssignable_iff (hs : s.Acyclic) :
    s.isAssignable nominal actual = true ↔ ∃ k, s.ancestor? k actual = some nominal := by
  rw [isAssignable, List.contains_iff_mem, mem_lineage hs]

theorem findSome?_eq_isAssignable :
    ((s.lineage actual).findSome? fun name => if name = nominal then some () else none) =
      if s.isAssignable nominal actual then some () else none := by
  unfold isAssignable
  induction s.lineage actual with
  | nil => rfl
  | cons name rest ih =>
    by_cases hname : name = nominal
    · simp [hname]
    · simpa [hname, Ne.symm hname] using ih

theorem isAssignable_refl (hs : s.Acyclic) (a : String) : s.isAssignable a a = true :=
  (isAssignable_iff hs).2 ⟨0, rfl⟩

theorem isAssignable_trans (hs : s.Acyclic) (hab : s.isAssignable a b = true)
    (hbc : s.isAssignable b c = true) : s.isAssignable a c = true := by
  obtain ⟨j, hj⟩ := (isAssignable_iff hs).1 hab
  obtain ⟨k, hk⟩ := (isAssignable_iff hs).1 hbc
  exact (isAssignable_iff hs).2 ⟨k + j, by rw [ancestor?_add, hk, Option.bind_some, hj]⟩

theorem isAssignable_antisymm (hs : s.Acyclic) (hab : s.isAssignable a b = true)
    (hba : s.isAssignable b a = true) : a = b := by
  obtain ⟨j, hj⟩ := (isAssignable_iff hs).1 hab
  obtain ⟨k, hk⟩ := (isAssignable_iff hs).1 hba
  cases j with
  | zero => exact (Option.some.inj hj).symm
  | succ j =>
    -- The two chains together lead back to where they start.
    have hcycle : s.ancestor? (k + j + 1) a = some a := by
      rw [Nat.add_assoc, ancestor?_add, hk, Option.bind_some, hj]
    exact absurd hcycle (hs a (k + j))

end Order

/-! ## Members -/

/-- The member of a name that a type declares itself. -/
def declared? (s : Schema) (member typeName : String) : Option Member :=
  (s.document? typeName).bind fun d => d.members.find? fun m => m.name = member

section Members
variable {typeName member nominal actual : String}

/-- The nearest declaration of a name is the one that counts. -/
theorem member?_eq_some_iff (hs : s.Acyclic) {m : Member} :
    s.member? typeName member = some m ↔
      ∃ k, s.IsNearest (s.declared? member) typeName k m :=
  findSome?_lineage hs

theorem isSome_member?_iff (hs : s.Acyclic) :
    (s.member? typeName member).isSome = true ↔
      ∃ k owner, s.ancestor? k typeName = some owner ∧
        (s.declared? member owner).isSome = true := by
  have hfound : (s.member? typeName member).isSome = true ↔
      ∃ owner ∈ s.lineage typeName, (s.declared? member owner).isSome = true :=
    List.findSome?_isSome_iff
  simp only [hfound, mem_lineage hs]
  constructor
  · rintro ⟨owner, ⟨k, hk⟩, h⟩
    exact ⟨k, owner, hk, h⟩
  · rintro ⟨k, owner, hk, h⟩
    exact ⟨owner, ⟨k, hk⟩, h⟩

/-- A type has the members of those it is assignable to. -/
theorem isSome_member?_of_isAssignable (hs : s.Acyclic) (h : s.isAssignable nominal actual = true)
    (hmember : (s.member? nominal member).isSome = true) :
    (s.member? actual member).isSome = true := by
  obtain ⟨j, hj⟩ := (isAssignable_iff hs).1 h
  obtain ⟨k, owner, hk, hdeclared⟩ := (isSome_member?_iff hs).1 hmember
  exact (isSome_member?_iff hs).2
    ⟨j + k, owner, by rw [ancestor?_add, hj, Option.bind_some, hk], hdeclared⟩

end Members

/-! ## Marks -/

section Marks
variable {nominal actual : String}

theorem discriminator_eq_none_iff :
    s.discriminator nominal actual = .ok none ↔ nominal = actual := by
  unfold discriminator
  split
  · simp [*]
  · split <;> simp [*]

theorem discriminator_eq_error_iff (hs : s.Acyclic) :
    (∃ e, s.discriminator nominal actual = .error e) ↔ s.isAssignable nominal actual = false := by
  unfold discriminator
  split
  · rename_i h
    simp [h, isAssignable_refl hs]
  · split <;> simp [*]

end Marks

/-! ## The hierarchy -/

/-- **Types that derive from each other are ordered, and look-ups respect the order.** In a schema
without a cycle of bases, the searches along a chain of bases end. Assignability is a partial order.
A type has the members of those it is assignable to, each by its nearest declaration. There is a
mark for a type among the values of another just if it derives from it. -/
theorem hierarchy_of_acyclic (hs : s.Acyclic) :
    ((∀ nominal actual r,
        Loop (fun name => if name = nominal then some () else none) s.base? (some actual) r ↔
          r = if s.isAssignable nominal actual then some () else none) ∧
      (∀ typeName member r,
        Loop (fun d => d.members.find? fun m => m.name = member) (fun d => d.base.bind s.document?)
          (s.document? typeName) r ↔ r = s.member? typeName member) ∧
      ∀ typeName, ∃ mark,
        (∀ r, Loop DocumentType.discriminatorElement (fun d => d.base.bind s.document?)
          (s.document? typeName) r ↔ r = mark) ∧
        ∀ fallback, s.discriminatorElement typeName fallback = mark.getD fallback) ∧
    ((∀ a, s.isAssignable a a = true) ∧
      (∀ a b c, s.isAssignable a b = true → s.isAssignable b c = true →
        s.isAssignable a c = true) ∧
      ∀ a b, s.isAssignable a b = true → s.isAssignable b a = true → a = b) ∧
    ((∀ nominal actual member, s.isAssignable nominal actual = true →
        (s.member? nominal member).isSome = true → (s.member? actual member).isSome = true) ∧
      ∀ typeName member m, s.member? typeName member = some m ↔
        ∃ k, s.IsNearest (s.declared? member) typeName k m) ∧
    ((∀ nominal actual, (∃ e, s.discriminator nominal actual = .error e) ↔
        s.isAssignable nominal actual = false) ∧
      ∀ nominal actual, s.discriminator nominal actual = .ok none ↔ nominal = actual) := by
  refine ⟨⟨fun nominal actual r => ?_, fun typeName member => loop_documents hs _ typeName,
      fun typeName => ⟨_, loop_documents hs _ typeName, fun fallback => rfl⟩⟩,
    ⟨isAssignable_refl hs, fun a b c => isAssignable_trans hs, fun a b => isAssignable_antisymm hs⟩,
    ⟨fun nominal actual member => isSome_member?_of_isAssignable hs,
      fun typeName member m => member?_eq_some_iff hs⟩,
    ⟨fun nominal actual => discriminator_eq_error_iff hs,
      fun nominal actual => discriminator_eq_none_iff⟩⟩
  rw [loop_names hs, findSome?_eq_isAssignable]

/-- Cats are registered twice, first as their own base. The base of animals is not registered. -/
def pets : Schema where
  documents :=
    [{ name := "Tabby", base := some "Cat", discriminator := some "tabby" },
     { name := "Cat", base := some "Animal", members := [⟨"Name", "c", .string, .natural⟩] },
     { name := "Animal", base := some "Thing", discriminatorElement := some "kind",
       members := [⟨"Name", "n", .string, .natural⟩, ⟨"Age", "a", .int32, .natural⟩] },
     { name := "Cat", base := some "Cat" }]

theorem hierarchy_of_acyclic_pets :
    pets.Acyclic ∧
    Loop (fun name => if name = "Thing" then some () else none) pets.base? (some "Tabby")
      (some ()) ∧
    (pets.member? "Tabby" "Age").isSome = true ∧
    (∃ k, pets.IsNearest (pets.declared? "Name") "Tabby" k ⟨"Name", "c", .string, .natural⟩) ∧
    ∃ e, pets.discriminator "Tabby" "Cat" = .error e := by
  have hs : pets.Acyclic := by decide
  obtain ⟨⟨hloop, -⟩, -, ⟨hinherited, hnearest⟩, hfails, -⟩ := hierarchy_of_acyclic hs
  exact ⟨hs, (hloop "Thing" "Tabby" _).2 rfl, hinherited "Animal" "Tabby" "Age" rfl rfl,
    (hnearest "Tabby" "Name" _).1 rfl, (hfails "Tabby" "Cat").2 rfl⟩

end Schema
end DocQuery
