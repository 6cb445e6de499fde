/-
Look-ups in documents: what `get?` and `hasKey` say about the entries, and what
they give in documents that are put together from others. `ofFields` has the
names that it is given, and no others (`mem_keys_ofFields`), and no fields but
those that it is given (`mem_of_mem_ofFields`); of several fields of a name it has
the last (`get?_ofFields`), so that its names are distinct (`nodup_keys_ofFields`),
and of fields with distinct names it is all of them (`ofFields_of_nodup`).
-/
import DocQuery.Value.Basic

namespace DocQuery.Document

theorem mem_of_get? {d : Document} {k : String} {x : Value} (h : d.get? k = some x) :
    (k, x) ∈ d := by
  induction d with
  | nil => cases h
  | cons e rest ih =>
    obtain ⟨k', x'⟩ := e
    by_cases hk : k' = k
    · simp only [get?, hk, if_true, Option.some.injEq] at h
      simp [hk, h]
    · simp only [get?, hk, if_false] at h
      exact List.mem_cons_of_mem _ (ih h)

theorem hasKey_of_mem {d : Document} {e : String × Value} (h : e ∈ d) : d.hasKey e.1 = true := by
  induction d with
  | nil => cases h
  | cons f rest ih =>
    obtain ⟨k, x⟩ := f
    by_cases hk : k = e.1
    · simp [hasKey, get?, hk]
    · rcases List.mem_cons.1 h with rfl | h
      · exact absurd rfl hk
      · simpa [hasKey, get?, hk] using ih h

theorem hasKey_append (a b : Document) (k : String) :
    hasKey (a ++ b) k = (a.hasKey k || b.hasKey k) := by
  induction a with
  | nil => simp [hasKey, get?]
  | cons e rest ih =>
    obtain ⟨k', x⟩ := e
    by_cases hk : k' = k
    · simp [hasKey, get?, hk]
    · simpa [hasKey, get?, hk] using ih

theorem insert_eq_append {d : Document} {k : String} (h : d.get? k = none) (x : Value) :
    d.insert k x = d ++ [(k, x)] := by
  induction d with
  | nil => rfl
  | cons e rest ih =>
    obtain ⟨k', x'⟩ := e
    by_cases hk : k' = k
    · simp [get?, hk] at h
    · simp only [get?, hk, if_false] at h
      simp [insert, hk, ih h]

/-- A field that is there is set in its place. -/
theorem split_of_get? {d : Document} {k : String} {x : Value} (h : d.get? k = some x) :
    ∃ before after, d = before ++ (k, x) :: after ∧
      ∀ y, d.insert k y = before ++ (k, y) :: after := by
  induction d with
  | nil => cases h
  | cons e rest ih =>
    obtain ⟨k', x'⟩ := e
    by_cases hk : k' = k
    · subst hk
      simp only [get?, if_true, Option.some.injEq] at h
      exact ⟨[], rest, by simp [h], fun y => by simp [insert]⟩
    · simp only [get?, hk, if_false] at h
      obtain ⟨before, after, hrest, hinsert⟩ := ih h
      exact ⟨(k', x') :: before, after, by simp [hrest], fun y => by simp [insert, hk, hinsert]⟩

theorem mem_keys_insert {d : Document} {k k' : String} {x : Value} :
    k' ∈ (d.insert k x).keys ↔ k' = k ∨ k' ∈ d.keys := by
  by_cases h : k ∈ d.keys
  · rw [keys_insert_of_mem h]
    constructor
    · exact .inr
    · rintro (rfl | h')
      · exact h
      · exact h'
  · rw [keys_insert_of_notMem h]
    simp [or_comm]

theorem mem_keys_foldl_insert {fields d : Document} {k : String} :
    k ∈ (fields.foldl (fun d (k, x) => insert d k x) d).keys ↔ k ∈ d.keys ∨ k ∈ fields.keys := by
  induction fields generalizing d with
  | nil => simp [keys]
  | cons e rest ih =>
    obtain ⟨k', x⟩ := e
    rw [List.foldl_cons, ih, mem_keys_insert]
    simp only [keys, List.map_cons, List.mem_cons]
    exact or_assoc.trans or_left_comm

/-- Setting fields one after the other gives just their names. -/
theorem mem_keys_ofFields {fields : Document} {k : String} :
    k ∈ (ofFields fields).keys ↔ k ∈ fields.keys := by
  rw [ofFields, mem_keys_foldl_insert]
  simp [keys]

theorem mem_insert {d : Document} {k : String} {x : Value} {e : String × Value}
    (h : e ∈ d.insert k x) : e = (k, x) ∨ e ∈ d := by
  induction d with
  | nil => exact .inl (by simpa [insert] using h)
  | cons f rest ih =>
    obtain ⟨k', x'⟩ := f
    by_cases hk : k' = k
    · simp only [insert, hk, if_true, List.mem_cons] at h
      exact h.imp_right (List.mem_cons_of_mem _)
    · simp only [insert, hk, if_false, List.mem_cons] at h
      rcases h with rfl | h
      · exact .inr (by simp)
      · exact (ih h).imp_right (List.mem_cons_of_mem _)

theorem mem_insert_of_ne {d : Document} {k : String} {e : String × Value} (hk : e.1 ≠ k)
    (he : e ∈ d) (x : Value) : e ∈ d.insert k x := by
  induction d with
  | nil => cases he
  | cons f rest ih =>
    obtain ⟨k', x'⟩ := f
    by_cases hk' : k' = k
    · rcases List.mem_cons.1 he with rfl | he
      · exact absurd hk' hk
      · simp [insert, hk', he]
    · rcases List.mem_cons.1 he with rfl | he
      · simp [insert, hk']
      · simp [insert, hk', ih he]

theorem mem_of_mem_foldl_insert {fields d : Document} {e : String × Value}
    (h : e ∈ fields.foldl (fun d (k, x) => insert d k x) d) : e ∈ d ∨ e ∈ fields := by
  induction fields generalizing d with
  | nil => exact .inl h
  | cons f rest ih =>
    obtain ⟨k, x⟩ := f
    rcases ih h with h | h
    · rcases mem_insert h with rfl | h
      · exact .inr (by simp)
      · exact .inl h
    · exact .inr (by simp [h])

theorem mem_of_mem_ofFields {fields : Document} {e : String × Value} (h : e ∈ ofFields fields) :
    e ∈ fields :=
  (mem_of_mem_foldl_insert h).resolve_left (by simp)

theorem get?_eq_none {d : Document} {k : String} (h : k ∉ d.keys) : d.get? k = none := by
  cases hk : d.get? k with
  | none => rfl
  | some x => exact absurd (List.mem_map_of_mem (mem_of_get? hk)) h

theorem get?_append (a b : Document) (k : String) : (a ++ b).get? k = (a.get? k).or (b.get? k) := by
  induction a with
  | nil => rfl
  | cons e rest ih =>
    obtain ⟨k', x⟩ := e
    by_cases hk : k' = k
    · simp [get?, hk]
    · simp only [List.cons_append, get?, hk, if_false, ih]

theorem get?_foldl_insert (fields d : Document) (k : String) :
    Document.get? (fields.foldl (fun d (k, x) => insert d k x) d) k =
      (Document.get? fields.reverse k).or (d.get? k) := by
  induction fields generalizing d with
  | nil => rfl
  | cons e rest ih =>
    obtain ⟨k', x⟩ := e
    rw [List.foldl_cons, ih, List.reverse_cons, get?_append]
    by_cases hk : k' = k
    · subst hk
      cases get? rest.reverse k' <;> simp [get?]
    · rw [get?_insert_of_ne hk]
      cases get? rest.reverse k <;> simp [get?, hk]

/-- The last field of a name is the one that stays. -/
theorem get?_ofFields (fields : Document) (k : String) :
    (ofFields fields).get? k = Document.get? fields.reverse k := by
  rw [ofFields, get?_foldl_insert]
  exact Option.or_none

theorem nodup_keys_insert {d : Document} (h : d.keys.Nodup) (k : String) (x : Value) :
    (d.insert k x).keys.Nodup := by
  by_cases hk : k ∈ d.keys
  · rwa [keys_insert_of_mem hk]
  · rw [keys_insert_of_notMem hk, List.nodup_append]
    refine ⟨h, by simp, ?_⟩
    intro a ha b hb hab
    rw [List.mem_singleton] at hb
    exact hk (hb ▸ hab ▸ ha)

/-- Fields that are set one after the other have distinct names. -/
theorem nodup_keys_ofFields (fields : Document) : (ofFields fields).keys.Nodup := by
  have hfold (d : Document) (hd : d.keys.Nodup) :
      (fields.foldl (fun d (k, x) => insert d k x) d).keys.Nodup := by
    induction fields generalizing d with
    | nil => exact hd
    | cons e rest ih => exact ih _ (nodup_keys_insert hd e.1 e.2)
  exact hfold [] (by simp [keys])

theorem foldl_insert_of_nodup {fields d : Document} (h : (d ++ fields).keys.Nodup) :
    fields.foldl (fun d (k, x) => insert d k x) d = d ++ fields := by
  induction fields generalizing d with
  | nil => simp
  | cons e rest ih =>
    obtain ⟨k, x⟩ := e
    have hk : k ∉ d.keys := by
      intro hk
      simp only [keys, List.map_append, List.nodup_append] at h
      exact h.2.2 k hk k (by simp) rfl
    simp only [List.foldl_cons]
    rw [insert_eq_append (get?_eq_none hk), ih (by simpa using h)]
    simp

/-- Fields with distinct names stay as they are. -/
theorem ofFields_of_nodup {fields : Document} (h : fields.keys.Nodup) : ofFields fields = fields :=
  foldl_insert_of_nodup (d := []) h

end DocQuery.Document
