/-
What an inclusion lists: the paths that are read, without those that continue another
one (`fieldsOf_minimal`).

Which paths continue another is decided by their steps, and each path is listed by its
name. A name has the steps of its path if these have no dots, so that no two paths are
listed as one (`lists_iff`).
-/
import DocQuery.Proofs.Inclusion
import Mathlib.Logic.ExistsUnique

namespace DocQuery.Inclusion

variable {paths : List (List String)} {p q : List String} {e : String × Value}

/-- A path that continues no other one. -/
def IsMinimal (paths : List (List String)) (p : List String) : Prop :=
  p ∈ paths ∧ ∀ q ∈ paths, q <+: p → q = p

/-- A path is listed, by its name. -/
def Lists (fields : Document) (p : List String) : Prop :=
  ∃ name, (name, .int32 1) ∈ fields ∧ steps name = p

/-- A path with steps, each of them without dots. -/
def IsPlain (p : List String) : Prop := p ≠ [] ∧ ∀ k ∈ p, '.' ∉ k.toList

/-! ## Minimal paths -/

theorem isMinimal_iff : IsMinimal paths p ↔ p ∈ paths ∧ covered paths p = false := by
  refine and_congr_right fun _ => ?_
  simp only [covered, List.any_eq_false, Bool.and_eq_true, decide_eq_true_eq,
    List.isPrefixOf_iff_prefix, not_and]
  constructor
  · intro h q hq hlt hprefix
    rw [h q hq hprefix] at hlt
    exact Nat.lt_irrefl _ hlt
  · intro h q hq hprefix
    -- A beginning that is no shorter is the whole.
    exact hprefix.eq_of_length_le (Nat.le_of_not_lt fun hlt => h q hq hlt hprefix)

/-- Of two beginnings of one path, one continues the other. -/
theorem IsMinimal.eq_of_begins {q' : List String} (hq : IsMinimal paths q)
    (hq' : IsMinimal paths q') (h : q <+: p) (h' : q' <+: p) : q = q' := by
  rcases List.prefix_or_prefix_of_prefix h h' with hprefix | hprefix
  · exact hq'.2 q hq.1 hprefix
  · exact (hq.2 q' hq'.1 hprefix).symm

/-! ## Entries -/

theorem nodup_keys_fieldsOf (paths : List (List String)) : (fieldsOf paths).keys.Nodup := by
  unfold fieldsOf
  dsimp only
  split
  · exact Document.nodup_keys_ofFields _
  · exact Document.nodup_keys_insert (Document.nodup_keys_ofFields _) _ _

/-- The entries are those of the minimal paths, and one for the identifier if no path starts
with it. -/
theorem mem_fieldsOf_iff (h : ∀ p ∈ paths, IsPlain p) :
    e ∈ fieldsOf paths ↔
      (∃ p, IsMinimal paths p ∧ e = (String.intercalate "." p, .int32 1)) ∨
        e = ("_id", .int32 0) ∧ ∀ p ∈ paths, p.head? ≠ some "_id" := by
  constructor
  · intro he
    have hlisted (he : e ∈ Document.ofFields ((paths.filter fun p => !covered paths p).map fun p =>
        (String.intercalate "." p, Value.int32 1))) :
        ∃ p, IsMinimal paths p ∧ e = (String.intercalate "." p, .int32 1) := by
      obtain ⟨p, hp, rfl⟩ := List.mem_map.1 (Document.mem_of_mem_ofFields he)
      simp only [List.mem_filter, Bool.not_eq_true'] at hp
      exact ⟨p, isMinimal_iff.2 hp, rfl⟩
    unfold fieldsOf at he
    dsimp only at he
    split at he
    · exact .inl (hlisted he)
    · rename_i hid
      rcases Document.mem_insert he with rfl | he
      · exact .inr ⟨rfl, by simpa using hid⟩
      · exact .inl (hlisted he)
  · rintro (⟨p, hp, rfl⟩ | ⟨rfl, hid⟩)
    · obtain ⟨hmem, hcovered⟩ := isMinimal_iff.1 hp
      exact mem_fieldsOf hmem (h p hmem).1 (h p hmem).2 hcovered
    · have hnone : (paths.any fun p => p.head? = some "_id") = false := by simpa using hid
      unfold fieldsOf
      dsimp only
      rw [hnone]
      exact Document.mem_of_get? (Document.get?_insert_self _ _ _)

theorem lists_iff (h : ∀ p ∈ paths, IsPlain p) : Lists (fieldsOf paths) p ↔ IsMinimal paths p := by
  constructor
  · rintro ⟨name, hname, rfl⟩
    rcases (mem_fieldsOf_iff h).1 hname with ⟨q, hq, heq⟩ | ⟨heq, -⟩
    · cases heq
      rwa [steps_intercalate (h q hq.1).1 (h q hq.1).2]
    · cases heq
  · intro hp
    exact ⟨_, (mem_fieldsOf_iff h).2 (.inl ⟨p, hp, rfl⟩),
      steps_intercalate (h p hp.1).1 (h p hp.1).2⟩

/-! ## The list -/

/-- **An inclusion lists the minimal paths.** Its entries are the paths that continue no other one,
each once, and the exclusion of the identifier if no path starts with it. Every path continues
exactly one that is listed, or is listed itself, and no listed path continues another. Which
entries there are depends only on which paths there are. -/
theorem fieldsOf_minimal (h : ∀ p ∈ paths, IsPlain p) :
    (∀ e, e ∈ fieldsOf paths ↔
      (∃ p, IsMinimal paths p ∧ e = (String.intercalate "." p, .int32 1)) ∨
        e = ("_id", .int32 0) ∧ ∀ p ∈ paths, p.head? ≠ some "_id") ∧
    (fieldsOf paths).keys.Nodup ∧
    (∀ p ∈ paths, ∃! q, Lists (fieldsOf paths) q ∧ q <+: p) ∧
    (∀ q q', Lists (fieldsOf paths) q → Lists (fieldsOf paths) q' → q <+: q' → q = q') ∧
    ∀ paths' : List (List String), (∀ p, p ∈ paths' ↔ p ∈ paths) →
      ∀ e, e ∈ fieldsOf paths' ↔ e ∈ fieldsOf paths := by
  refine ⟨fun e => mem_fieldsOf_iff h, nodup_keys_fieldsOf paths, fun p hp => ?_,
    fun q q' hq hq' hprefix => ?_, fun paths' hsame e => ?_⟩
  · obtain ⟨q, hq, hprefix, hcovered⟩ := exists_not_covered p hp
    have hminimal := isMinimal_iff.2 ⟨hq, hcovered⟩
    refine ⟨q, ⟨(lists_iff h).2 hminimal, hprefix⟩, ?_⟩
    rintro q' ⟨hlists, hprefix'⟩
    exact ((lists_iff h).1 hlists).eq_of_begins hminimal hprefix' hprefix
  · rw [lists_iff h] at hq hq'
    exact hq.eq_of_begins hq' hprefix (List.prefix_refl _)
  · have h' : ∀ p ∈ paths', IsPlain p := fun p hp => h p ((hsame p).1 hp)
    rw [mem_fieldsOf_iff h', mem_fieldsOf_iff h]
    simp only [IsMinimal, hsame]

/-- A path, one below it, the first one again, and one below the identifier. -/
def overlapping : List (List String) := [["a", "b"], ["a", "b", "c"], ["a", "b"], ["_id", "n"]]

theorem fieldsOf_minimal_overlapping :
    (∀ p ∈ overlapping, IsPlain p) ∧
    (∃! q, Lists (fieldsOf overlapping) q ∧ q <+: ["a", "b", "c"]) ∧
    ("_id", .int32 0) ∉ fieldsOf overlapping ∧
    ∀ e, e ∈ fieldsOf [["_id", "n"], ["a", "b", "c"], ["a", "b"]] ↔ e ∈ fieldsOf overlapping := by
  have h : ∀ p ∈ overlapping, IsPlain p := by simp [overlapping, IsPlain]
  obtain ⟨hentries, -, hone, -, hsame⟩ := fieldsOf_minimal h
  refine ⟨h, hone _ (by simp [overlapping]), ?_, hsame _ fun p => ?_⟩
  · rw [hentries]
    simp [overlapping]
  · simp only [overlapping, List.mem_cons, List.not_mem_nil]
    grind

end DocQuery.Inclusion
