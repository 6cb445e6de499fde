/-
Integers keep their value on the way from a literal to its stored form
(`encode_coerce_integers`).

A literal may be an integer of either width, or arrays of such literals, with nulls in
it. It is converted to the type of a place and then encoded, and each of the two steps
may change the width of an integer, but not its value. Only a place that stores 32 bits
refuses integers, and only those that do not fit.
-/
import DocQuery.Proofs.Result
import DocQuery.Schema.Encoding
import Mathlib.Data.List.Forall2

namespace DocQuery

/-! ## Integers in arrays -/

/-- How many arrays a type has around its innermost items. -/
def ValueType.depth : ValueType → Nat
  | .nullable inner => inner.depth
  | .array item => item.depth + 1
  | _ => 0

namespace Value

/-- Integers and nulls in so many arrays. A null may stand for an array. -/
inductive AreIntegers : Nat → Value → Prop
  | null {n : Nat} : AreIntegers n .null
  | integer {v : Value} {k : Int} (h : v.asInt? = some k) : AreIntegers 0 v
  | array {n : Nat} {items : List Value} (h : ∀ v ∈ items, AreIntegers n v) :
      AreIntegers (n + 1) (.array items)

/-- The same integers and nulls in the same arrays. The integers may differ in width. -/
inductive SameIntegers : Value → Value → Prop
  | null : SameIntegers .null .null
  | integer {v w : Value} {k : Int} (hv : v.asInt? = some k) (hw : w.asInt? = some k) :
      SameIntegers v w
  | array {items items' : List Value} (h : List.Forall₂ SameIntegers items items') :
      SameIntegers (.array items) (.array items')

/-- An integer stands somewhere in a value. -/
inductive HasInteger (k : Int) : Value → Prop
  | integer {v : Value} (h : v.asInt? = some k) : HasInteger k v
  | item {items : List Value} {v : Value} (hv : v ∈ items) (h : HasInteger k v) :
      HasInteger k (.array items)

/-- An integer that does not fit into 32 bits stands somewhere in a value. -/
def ExceedsInt32 (v : Value) : Prop := ∃ k, v.HasInteger k ∧ (k < -2147483648 ∨ 2147483648 ≤ k)

variable {v w : Value} {k : Int} {items : List Value}

theorem asInt?_cases (h : v.asInt? = some k) :
    (∃ n : Int32, v = .int32 n ∧ k = n.toInt) ∨ ∃ n : Int64, v = .int64 n ∧ k = n.toInt := by
  cases v with
  | int32 n => exact .inl ⟨n, rfl, (Option.some.inj h).symm⟩
  | int64 n => exact .inr ⟨n, rfl, (Option.some.inj h).symm⟩
  | _ => cases h

theorem not_exceedsInt32_null : ¬ExceedsInt32 .null := by
  rintro ⟨k, h, -⟩
  cases h with
  | integer h => cases h

theorem exceedsInt32_iff (h : v.asInt? = some k) :
    v.ExceedsInt32 ↔ k < -2147483648 ∨ 2147483648 ≤ k := by
  constructor
  · rintro ⟨k', hk', hout⟩
    cases hk' with
    | integer h' =>
      cases h.symm.trans h'
      exact hout
    | item => cases h
  · exact fun hout => ⟨k, .integer h, hout⟩

theorem exceedsInt32_array : (Value.array items).ExceedsInt32 ↔ ∃ v ∈ items, v.ExceedsInt32 := by
  constructor
  · rintro ⟨k, h, hout⟩
    cases h with
    | integer h => cases h
    | item hv h => exact ⟨_, hv, k, h, hout⟩
  · rintro ⟨v, hv, k, h, hout⟩
    exact ⟨k, .item hv h, hout⟩

end Value

/-- The 32-bit integer of a number is the number; there is none if it does not fit. -/
theorem int32?_cases (k : Int) :
    (∃ n, int32? k = some n ∧ n.toInt = k ∧ ¬(k < -2147483648 ∨ 2147483648 ≤ k)) ∨
      int32? k = none ∧ (k < -2147483648 ∨ 2147483648 ≤ k) := by
  have hmin : Int32.minValue.toInt = -2147483648 := by decide
  have hmax : Int32.maxValue.toInt = 2147483647 := by decide
  unfold int32?
  rw [hmin, hmax]
  split
  · rename_i h
    exact .inl ⟨_, rfl, Int32.toInt_ofInt_of_le h.1 (by omega), by omega⟩
  · exact .inr ⟨rfl, by omega⟩

namespace ValueType

variable {t : ValueType}

theorem depth_eq_zero (h : t.depth = 0) : t.underlying = t.element := by
  induction t with
  | nullable inner ih => exact ih h
  | array item => cases h
  | _ => rfl

theorem depth_eq_succ {n : Nat} (h : t.depth = n + 1) :
    ∃ item, t.underlying = .array item ∧ item.depth = n ∧ item.element = t.element := by
  induction t with
  | nullable inner ih => exact ih h
  | array item => exact ⟨item, rfl, by simpa [depth] using h, rfl⟩
  | _ => cases h

theorem underlying_element (t : ValueType) : t.element.underlying = t.element := by
  induction t with
  | nullable inner ih => exact ih
  | array item ih => exact ih
  | _ => rfl

theorem isInteger_cases (h : t.isInteger = true) :
    t.underlying = .int32 ∨ t.underlying = .int64 ∨ ∃ name, t.underlying = .enumeration name := by
  unfold isInteger at h
  split at h <;> simp_all

theorem isInteger_underlying (t : ValueType) : t.underlying.isInteger = t.isInteger := by
  induction t with
  | nullable inner ih => exact ih
  | _ => rfl

theorem isInteger_of_depth (hdepth : t.depth = 0) (h : t.element.isInteger = true) :
    t.isInteger = true := by
  rw [← isInteger_underlying, depth_eq_zero hdepth]
  exact h

end ValueType

namespace Schema

variable {s : Schema} {source target t : ValueType} {r : Representation} {v : Value} {k : Int}
  {items : List Value}

/-! ## Conversion -/

/-- A built-in converter between whole numbers gives the number it is given. -/
theorem asInt?_of_mem_builtinConverters {c : Converter} (hc : c ∈ builtinConverters)
    (hsource : c.source.isInteger = true) (htarget : c.target.isInteger = true)
    (h : v.asInt? = some k) {w : Value} (hw : c.convert v = some w) : w.asInt? = some k := by
  simp only [builtinConverters, List.mem_cons, List.not_mem_nil, or_false] at hc
  rcases hc with rfl | rfl | rfl | rfl | rfl | rfl
  · obtain ⟨n, rfl, rfl⟩ | ⟨n, rfl, -⟩ := Value.asInt?_cases h
    · cases hw
      exact congrArg some (Int32.toInt_toInt64 n)
    · cases hw
  · cases htarget
  · cases htarget
  · obtain ⟨n, rfl, -⟩ | ⟨n, rfl, rfl⟩ := Value.asInt?_cases h
    · cases hw
    · obtain ⟨m, hm, rfl⟩ := Option.map_eq_some_iff.1 hw
      obtain ⟨m', hm', hvalue, -⟩ | ⟨hnone, -⟩ := int32?_cases n.toInt
      · cases hm.symm.trans hm'
        exact congrArg some hvalue
      · cases hm.symm.trans hnone
  · cases htarget
  · cases htarget

theorem asInt?_convert (hs : s.converters = builtinConverters) (hsource : source.isInteger = true)
    (htarget : target.isInteger = true) (h : v.asInt? = some k) :
    (s.convert source target v).asInt? = some k := by
  unfold convert
  cases hc : s.converter? source target with
  | none => exact h
  | some c =>
    rw [converter?, hs] at hc
    have hmem := List.mem_of_find?_eq_some hc
    obtain ⟨rfl, rfl⟩ : c.source = source ∧ c.target = target := by
      simpa using List.find?_some hc
    cases hw : c.convert v with
    | none => simpa [hw] using h
    | some w => simpa [hw] using asInt?_of_mem_builtinConverters hmem hsource htarget h hw

theorem coerce_underlying (s : Schema) (source target : ValueType) (v : Value) :
    s.coerce source target v = s.coerce source.underlying target v := by
  induction source with
  | nullable inner ih => exact ih
  | _ => rfl

theorem coerce_null (s : Schema) (source target : ValueType) :
    s.coerce source target .null = .null := by
  induction source with
  | nullable inner ih => exact ih
  | _ => rfl

/-- The items of an array are converted, also where this changes none of them. -/
theorem coerce_array (s : Schema) {item item' : ValueType}
    (hsource : source.underlying = .array item)
    (htarget : target.underlying = .array item') (items : List Value) :
    s.coerce source target (.array items) = .array (items.map (s.coerce item item')) := by
  rw [coerce_underlying, hsource]
  by_cases h : item = item'
  · subst h
    have hitems : items.map (s.coerce item item) = items :=
      List.map_id'' (fun v => s.coerce_eq_self v rfl) items
    rw [s.coerce_eq_self _ (by rw [htarget]; rfl), hitems]
  · simp [coerce, htarget, Value.isNull, h]

/-- Conversion may change the width of an integer, but not its value. -/
theorem asInt?_coerce (hs : s.converters = builtinConverters) (hsource : source.isInteger = true)
    (htarget : target.isInteger = true) (h : v.asInt? = some k) :
    (s.coerce source target v).asInt? = some k := by
  have hconvert := asInt?_convert hs ((ValueType.isInteger_underlying source).trans hsource)
    ((ValueType.isInteger_underlying target).trans htarget) h
  rw [coerce_underlying]
  obtain hu | hu | ⟨name, hu⟩ := ValueType.isInteger_cases hsource
  all_goals
    rw [hu] at hconvert ⊢
    simp only [coerce]
    split
    · exact h
    split
    · exact h
    split <;> first | exact h | exact hconvert

/-! ## Stored integers -/

/-- A place that stores 32 bits for each integer. -/
def StoresInt32 (t : ValueType) (r : Representation) : Prop :=
  r = .int32 ∧ ∀ name, t.element ≠ .enumeration name

/-- A result is refused on a condition, and else has the integers of a value. -/
def Keeps (refused : Prop) (v : Value) (result : Result Value) : Prop :=
  (refused ∧ ∃ e, result = .error e) ∨ ¬refused ∧ ∃ w, result = .ok w ∧ v.SameIntegers w

theorem represent_integer (hr : r ≠ .string) (h : v.asInt? = some k) :
    (r = .int32 ∧ (k < -2147483648 ∨ 2147483648 ≤ k)) ∧ (∃ e, represent r v = .error e) ∨
      ¬(r = .int32 ∧ (k < -2147483648 ∨ 2147483648 ≤ k)) ∧
        ∃ w, represent r v = .ok w ∧ w.asInt? = some k := by
  obtain ⟨n, rfl, rfl⟩ | ⟨n, rfl, rfl⟩ := Value.asInt?_cases h
  · have hle := Int32.le_toInt n
    have hlt := Int32.toInt_lt n
    refine .inr ⟨by omega, ?_⟩
    cases r with
    | string => exact absurd rfl hr
    | int64 => exact ⟨_, rfl, congrArg some (Int32.toInt_toInt64 n)⟩
    | _ => exact ⟨_, rfl, rfl⟩
  · cases r with
    | string => exact absurd rfl hr
    | int32 =>
      obtain ⟨m, hm, hvalue, hfits⟩ | ⟨hnone, hout⟩ := int32?_cases n.toInt
      · exact .inr ⟨fun h => hfits h.2, .int32 m, by simp [represent, hm], congrArg some hvalue⟩
      · exact .inl ⟨⟨rfl, hout⟩, .exceedsInt32 n, by simp only [represent, hnone]⟩
    | _ => exact .inr ⟨fun h => (nomatch h.1), _, rfl, rfl⟩

/-- Stored under its number, an enumeration value takes as many bits as the number needs. -/
theorem encodeEnum_integer (s : Schema) (hr : r ≠ .string) (name : String)
    (h : v.asInt? = some k) : ∃ w, s.encodeEnum name r v = .ok w ∧ w.asInt? = some k := by
  obtain ⟨n, hn, rfl⟩ : ∃ n : Int64, s.enumNumber name v = .ok n ∧ n.toInt = k := by
    obtain ⟨n, rfl, rfl⟩ | ⟨n, rfl, rfl⟩ := Value.asInt?_cases h
    · exact ⟨_, rfl, Int32.toInt_toInt64 n⟩
    · exact ⟨n, rfl, rfl⟩
  have hshort : (((int32? n.toInt).map Value.int32).getD (.int64 n)).asInt? = some n.toInt := by
    obtain ⟨m, hm, hvalue, -⟩ | ⟨hnone, -⟩ := int32?_cases n.toInt
    · simp [hm, Value.asInt?, hvalue]
    · simp [hnone, Value.asInt?]
  unfold encodeEnum
  rw [hn]
  cases r with
  | string => exact absurd rfl hr
  | int64 => exact ⟨_, rfl, rfl⟩
  | _ => exact ⟨_, rfl, hshort⟩

/-- Only where they are no numbers of enumeration values do integers have to fit. -/
theorem keeps_encode_integer (s : Schema) {w : Value} (hr : r ≠ .string)
    (ht : t.element.isInteger = true) (hv : v.asInt? = some k) (hw : w.asInt? = some k) :
    Keeps (StoresInt32 t r ∧ v.ExceedsInt32) v (s.encode t r w) := by
  rw [Value.exceedsInt32_iff hv]
  have hencode : s.encode t r w = represent r w ∧ (∀ name, t.element ≠ .enumeration name) ∨
      ∃ name, s.encode t r w = s.encodeEnum name r w ∧ t.element = .enumeration name := by
    have hu := ValueType.isInteger_cases ht
    rw [ValueType.underlying_element] at hu
    obtain ⟨n, rfl, -⟩ | ⟨n, rfl, -⟩ := Value.asInt?_cases hw
    all_goals
      obtain hu | hu | ⟨name, hu⟩ := hu
      · exact .inl (by simp [encode, hu])
      · exact .inl (by simp [encode, hu])
      · exact .inr ⟨name, by simp [encode, hu], hu⟩
  obtain ⟨hencode, hleaf⟩ | ⟨name, hencode, hleaf⟩ := hencode
  · rw [hencode]
    obtain ⟨⟨rfl, hout⟩, herror⟩ | ⟨hfits, w', hok, hw'⟩ := represent_integer hr hw
    · exact .inl ⟨⟨⟨rfl, hleaf⟩, hout⟩, herror⟩
    · exact .inr ⟨fun h => hfits ⟨h.1.1, h.2⟩, w', hok, .integer hv hw'⟩
  · obtain ⟨w', hok, hw'⟩ := s.encodeEnum_integer hr name hw
    exact .inr ⟨fun h => h.1.2 name hleaf, w', hencode.trans hok, .integer hv hw'⟩

/-- One item that is refused is enough for the items to be refused. -/
theorem keeps_encodeItems {f : Value → Value} {refused : Value → Prop}
    (h : ∀ v ∈ items, Keeps (refused v) v (s.encode t r (f v))) :
    ((∃ v ∈ items, refused v) ∧ ∃ e, s.encodeItems t r (items.map f) = .error e) ∨
      (¬∃ v ∈ items, refused v) ∧ ∃ items', s.encodeItems t r (items.map f) = .ok items' ∧
        List.Forall₂ Value.SameIntegers items items' := by
  induction items with
  | nil => exact .inr ⟨by simp, [], rfl, .nil⟩
  | cons v rest ih =>
    rw [List.map_cons, encodeItems]
    obtain ⟨hrefused, e, he⟩ | ⟨hkept, w, hw, hsame⟩ := h v (by simp)
    · exact .inl ⟨⟨v, by simp, hrefused⟩, e, by rw [he]; rfl⟩
    obtain ⟨⟨v', hv', hrefused⟩, e, he⟩ | ⟨hrest, items', hitems', hall⟩ :=
      ih fun v' hv' => h v' (List.mem_cons_of_mem _ hv')
    · exact .inl ⟨⟨v', List.mem_cons_of_mem _ hv', hrefused⟩, e, by rw [hw, he]; rfl⟩
    · refine .inr ⟨?_, w :: items', by rw [hw, hitems']; rfl, .cons hsame hall⟩
      simpa using ⟨hkept, by simpa using hrest⟩

/-- By recursion on the arrays around the integers, which the two types and the literal share. -/
theorem keeps_encode_coerce (hs : s.converters = builtinConverters) (hr : r ≠ .string) {n : Nat}
    (hsource : source.element.isInteger = true) (hsourceDepth : source.depth = n)
    (htarget : target.element.isInteger = true) (htargetDepth : target.depth = n)
    (hv : v.AreIntegers n) :
    Keeps (StoresInt32 target r ∧ v.ExceedsInt32) v
      (s.encode target r (s.coerce source target v)) := by
  induction hv generalizing source target with
  | null =>
    rw [coerce_null, encode]
    exact .inr ⟨fun h => Value.not_exceedsInt32_null h.2, .null, rfl, .null⟩
  | integer h =>
    exact s.keeps_encode_integer hr htarget h (asInt?_coerce hs
      (ValueType.isInteger_of_depth hsourceDepth hsource)
      (ValueType.isInteger_of_depth htargetDepth htarget) h)
  | @array n items _ ih =>
    obtain ⟨item, hunder, hdepth, helement⟩ := ValueType.depth_eq_succ hsourceDepth
    obtain ⟨item', hunder', hdepth', helement'⟩ := ValueType.depth_eq_succ htargetDepth
    rw [coerce_array s hunder hunder', encode, hunder', Value.exceedsInt32_array]
    have hstores : StoresInt32 item' r ↔ StoresInt32 target r := by
      rw [StoresInt32, StoresInt32, helement']
    have hitems := keeps_encodeItems fun v hv =>
      ih v hv (helement ▸ hsource) hdepth (helement' ▸ htarget) hdepth'
    simp only [hstores] at hitems
    obtain ⟨⟨v, hv, hrefused⟩, e, he⟩ | ⟨hkept, items', hitems', hall⟩ := hitems
    · exact .inl ⟨⟨hrefused.1, v, hv, hrefused.2⟩, e, by simp only [he]; rfl⟩
    · refine .inr ⟨?_, .array items', by simp only [hitems']; rfl, .array hall⟩
      rintro ⟨hstores, v, hv, hout⟩
      exact hkept ⟨v, hv, hstores, hout⟩

/-- With the built-in converters, a literal is stored with its integers and nulls, or refused. It
is refused exactly where 32 bits are stored for each integer and one of them does not fit. -/
theorem encode_coerce_integers (documents : List DocumentType) (enums : List Enumeration)
    (source target : ValueType) (r : Representation)
    (hsource : source.element.isInteger = true) (htarget : target.element.isInteger = true)
    (hdepth : source.depth = target.depth) (hv : v.AreIntegers target.depth) (hr : r ≠ .string) :
    let s : Schema := { builtin with documents := documents, enums := enums }
    let stored := s.encode target r (s.coerce source target v)
    ((∃ w, stored = .ok w ∧ v.SameIntegers w) ∨ ∃ e, stored = .error e) ∧
      ((∃ e, stored = .error e) ↔
        r = .int32 ∧ (∀ name, target.element ≠ .enumeration name) ∧ v.ExceedsInt32) := by
  intro s stored
  have hkeeps : Keeps (StoresInt32 target r ∧ v.ExceedsInt32) v stored :=
    keeps_encode_coerce rfl hr hsource hdepth htarget rfl hv
  rw [StoresInt32, and_assoc] at hkeeps
  obtain ⟨hrefused, herror⟩ | ⟨hkept, w, hok, hsame⟩ := hkeeps
  · exact ⟨.inr herror, iff_of_true herror hrefused⟩
  · refine ⟨.inl ⟨w, hok, hsame⟩, iff_of_false ?_ hkept⟩
    rintro ⟨e, he⟩
    cases hok.symm.trans he

/-- The least integer that takes more than 32 bits, a null and an integer of 32 bits. -/
def beyondInt32 : Value := .array [.int64 2147483648, .null, .int32 (-5)]

/-- Its integers are refused by a place for 32-bit integers and stored by one for the values of an
enumeration. -/
theorem encode_coerce_integers_beyondInt32 :
    (∃ e, builtin.encode (.nullable (.array .int32)) .int32
      (builtin.coerce (.array (.nullable .int64)) (.nullable (.array .int32)) beyondInt32) =
        .error e) ∧
    ∃ w, builtin.encode (.array (.enumeration "Size")) .int32
      (builtin.coerce (.array (.nullable .int64)) (.array (.enumeration "Size")) beyondInt32) =
        .ok w ∧ beyondInt32.SameIntegers w := by
  have hv : beyondInt32.AreIntegers 1 := by
    refine .array fun v hv => ?_
    simp only [List.mem_cons, List.not_mem_nil, or_false] at hv
    rcases hv with rfl | rfl | rfl
    · exact .integer rfl
    · exact .null
    · exact .integer rfl
  have hexceeds : beyondInt32.ExceedsInt32 :=
    ⟨2147483648, .item (List.mem_cons_self ..) (.integer rfl), .inr (by decide)⟩
  constructor
  · exact (encode_coerce_integers [] [] (.array (.nullable .int64)) (.nullable (.array .int32))
      .int32 rfl rfl rfl hv (by decide)).2.2 ⟨rfl, fun name h => (nomatch h), hexceeds⟩
  · obtain ⟨hok | herror, hiff⟩ := encode_coerce_integers [] [] (.array (.nullable .int64))
      (.array (.enumeration "Size")) .int32 rfl rfl rfl hv (by decide)
    · exact hok
    · exact absurd rfl ((hiff.1 herror).2.1 "Size")

end Schema
end DocQuery
