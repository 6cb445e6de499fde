/-
The bits of a stored integer under a constant mask, compared with a constant.

The database has four operators that ask about the positions at which a mask has a bit:
whether all of them, or some, are set or clear in the stored integer (`bitsPass`). All are
clear if the masked integer is zero, and all are set if it is the mask (`and_eq_iff`). So
there is an operator for equality and inequality with these two numbers and for nothing
else (`bitOperator?_eq_none_iff`), and it asks what the comparison asks
(`bitsPass_of_bitOperator?`). Any other comparison of masked bits has no answer of a rule,
and as they are no stored place, it is not supported.
-/
import DocQuery.Proofs.Filter.Answer

namespace DocQuery

open DocQuery.Filter

/-! ## Bits -/

/-- The bits of an integer in two's complement, a narrow one being widened with its sign. -/
def Value.bits? : Value → Option (BitVec 64)
  | .int32 n => some (n.toBitVec.signExtend 64)
  | .int64 n => some n.toBitVec
  | _ => none

/-- The bits are those of the number, whatever the width. -/
theorem Value.bits?_of_asInt? {x : Value} {n : Int64} (h : x.asInt? = some n.toInt) :
    x.bits? = some n.toBitVec := by
  cases x with
  | int32 k =>
    have hbits : k.toBitVec.signExtend 64 = n.toBitVec := by
      apply BitVec.eq_of_toInt_eq
      rw [BitVec.toInt_signExtend_of_le (by decide)]
      exact Option.some.inj h
    rw [bits?, hbits]
  | int64 k =>
    obtain rfl : k = n := Int64.toInt_inj.1 (Option.some.inj h)
    rfl
  | _ => cases h

namespace Filter

/-- The positions at which a word has a bit. -/
def setBits (w : BitVec 64) : List Nat := (List.range 64).filter w.getLsbD

theorem mem_setBits {w : BitVec 64} {i : Nat} : i ∈ setBits w ↔ i < 64 ∧ w.getLsbD i = true := by
  simp [setBits]

/-- Whether a word passes an operator with a mask. -/
def bitsPass (op : String) (w mask : BitVec 64) : Bool :=
  match op with
  | "$bitsAllClear" => (setBits mask).all fun i => !w.getLsbD i
  | "$bitsAllSet" => (setBits mask).all fun i => w.getLsbD i
  | "$bitsAnySet" => (setBits mask).any fun i => w.getLsbD i
  | "$bitsAnyClear" => (setBits mask).any fun i => !w.getLsbD i
  | _ => false

variable {v mask c : Int64} {op : BinaryOp} {name : String}

/-- What the mask leaves is the mask, or nothing, if all of its bits are set, or clear. -/
theorem and_eq_iff (b : Bool) :
    v &&& mask = (if b then mask else 0) ↔
      ∀ i ∈ setBits mask.toBitVec, v.toBitVec.getLsbD i = b := by
  have hbit (i : Nat) : (if b then mask else 0).toBitVec.getLsbD i =
      (b && mask.toBitVec.getLsbD i) := by
    cases b <;> simp
  rw [← Int64.toBitVec_inj, Int64.toBitVec_and]
  constructor
  · intro h i hi
    have heq := congrArg (BitVec.getLsbD · i) h
    simpa [hbit, (mem_setBits.1 hi).2] using heq
  · intro h
    refine BitVec.eq_of_getLsbD_eq fun i hi => ?_
    rw [hbit, BitVec.getLsbD_and]
    cases hm : mask.toBitVec.getLsbD i with
    | false => simp
    | true => rw [h i (mem_setBits.2 ⟨hi, hm⟩)]

theorem all_clear_iff :
    ((setBits mask.toBitVec).all fun i => !v.toBitVec.getLsbD i) = true ↔ v &&& mask = 0 := by
  simpa using (and_eq_iff false).symm

theorem all_set_iff :
    ((setBits mask.toBitVec).all fun i => v.toBitVec.getLsbD i) = true ↔ v &&& mask = mask := by
  simpa using (and_eq_iff true).symm

/-! ## Operators -/

/-- There is an operator for equality and inequality with no bits and with the whole mask. -/
theorem bitOperator?_eq_none_iff {mask c : Int} :
    bitOperator? op mask c = none ↔ ¬((op = .equal ∨ op = .notEqual) ∧ (c = 0 ∨ c = mask)) := by
  cases op with
  | equal | notEqual =>
    unfold bitOperator?
    split_ifs <;> simp [*]
  | _ => simp [bitOperator?]

/-- The operator asks what the comparison asks. -/
theorem bitsPass_of_bitOperator? (h : bitOperator? op mask.toInt c.toInt = some name) (v : Int64) :
    bitsPass name v.toBitVec mask.toBitVec = true ↔ op.Relates (v &&& mask).toInt c.toInt := by
  have hzero : c.toInt = 0 → c = 0 := fun h => Int64.toInt_inj.1 h
  cases op with
  | equal =>
    unfold bitOperator? at h
    rw [BinaryOp.Relates, Int64.toInt_inj]
    split_ifs at h with hc hm <;> cases h
    · rw [hzero hc]
      exact all_clear_iff
    · rw [Int64.toInt_inj.1 hm]
      exact all_set_iff
  | notEqual =>
    -- Some bit is set if not all are clear, and the other way round.
    unfold bitOperator? at h
    rw [BinaryOp.Relates, ne_eq, Int64.toInt_inj]
    split_ifs at h with hc hm <;> cases h
    · rw [hzero hc, ← all_clear_iff]
      simp [bitsPass]
    · rw [Int64.toInt_inj.1 hm, ← all_set_iff]
      simp [bitsPass]
  | _ => cases h

/-- Answers about a document in which a field has an integer. -/
def Valuation.ofInteger (name : String) (v : Int64) : Valuation :=
  .ofFields fun tested op x => tested = name && x.bits?.any (bitsPass op v.toBitVec)

/-- An operator that asks about bits is one on the field, and no negated one. -/
theorem operatorHolds_bits {mask c : Int} (h : bitOperator? op mask c = some name) :
    isOperator name = true ∧ name ≠ "$not" ∧
      ∀ (v : Valuation) (field : String) (x : Value),
        operatorHolds v field name x = v.field field name x := by
  have hname : name ∈ ["$bitsAllClear", "$bitsAllSet", "$bitsAnySet", "$bitsAnyClear"] := by
    cases op with
    | equal | notEqual =>
      unfold bitOperator? at h
      split_ifs at h <;> cases h <;> simp
    | _ => cases h
  simp only [List.mem_cons, List.not_mem_nil, or_false] at hname
  rcases hname with rfl | rfl | rfl | rfl <;> simp [isOperator, operatorHolds]

theorem holds_bits (h : bitOperator? op mask.toInt c.toInt = some name) {x : Value}
    (hx : x.asInt? = some mask.toInt) (field : String) (v : Int64) :
    holds (.ofInteger field v) (testOp field name x) = true ↔
      op.Relates (v &&& mask).toInt c.toInt := by
  obtain ⟨hoperator, hnot, hfield⟩ := operatorHolds_bits h
  rw [← bitsPass_of_bitOperator? h, Valuation.ofInteger, holds_testOp_ofFields hoperator hnot,
    hfield]
  simp [Valuation.ofFields, Value.bits?_of_asInt? hx]

end Filter

/-! ## Filters -/

/-- The number that an expression is known to be. -/
def Expr.knownInt? (e : Expr) : Option Int := e.known?.bind Literal.asInt?

namespace Mapping

variable {m : Mapping} {left right e mask : Expr} {f : FieldPath} {p : Param} {op : BinaryOp}
  {l : Literal} {bits : Int64}

/-- Masked bits are no length, remainder, call or position, so the rules for these have no
answer. -/
theorem rules_of_maskedBits (hleft : left.strip = .binary .and e mask) (s : Scope) :
    ∀ rule ∈ [m.arrayLengthRule, m.moduloRule, m.orderingRule, m.indexOfRule, m.charAtRule,
        m.stringLengthRule, m.letterCaseRule], rule ⟨op, left, l⟩ s = .ok none := by
  intro rule hrule
  simp only [List.mem_cons, List.not_mem_nil, or_false] at hrule
  rcases hrule with rfl | rfl | rfl | rfl | rfl | rfl | rfl
  · simp only [arrayLengthRule, Expr.lengthOf?, hleft]
    rfl
  · simp only [moduloRule, hleft]
    rfl
  · simp only [orderingRule, hleft]
    rfl
  · simp only [indexOfRule, hleft]
    rfl
  · simp only [charAtRule, hleft]
    rfl
  · simp only [stringLengthRule, Expr.stringLengthOf?, hleft]
    rfl
  · simp only [letterCaseRule, hleft]
    rfl

theorem known?_of_maskedBits (hleft : left.strip = .binary .and e mask) : left.known? = none := by
  rw [← Expr.known?_strip, hleft]
  rfl

theorem check_maskedBits (hf : m.schema.fieldPath? e = .ok (some f))
    (hleft : left.strip = .binary .and e mask)
    (hcheck : (Scope.root p.name).check mask = .ok ()) :
    (Scope.root p.name).check left = .ok () := by
  have hforeign := isForeign_root p.name
  rw [← Scope.check_strip hforeign, hleft]
  exact check_binary .and (Scope.check_of_fieldPath? hf (hforeign f.param)) hcheck

section Masked
variable {known : Literal} {n : Int} {name : String}
  (hf : m.schema.fieldPath? e = .ok (some f)) (hp : f.param = p.name)
  (hinteger : (m.schema.typeOf e).isInteger = true) (hleft : left.strip = .binary .and e mask)
  (hknown : mask.known? = some known) (hn : known.asInt? = some n)
include hf hp hinteger hleft hknown hn

/-- The rule for bits answers if there is an operator. -/
theorem firstAnswer_maskedBits :
    (Comparison.mk op left l).firstAnswer (.root p.name) m.comparisonRules =
      .ok ((l.asInt?.bind (bitOperator? op n)).map fun name =>
        testOp f.dotted name known.value) := by
  have hrules : m.comparisonRules =
      [m.arrayLengthRule, m.moduloRule, m.orderingRule, m.indexOfRule, m.charAtRule,
        m.stringLengthRule, m.letterCaseRule] ++ [m.bitsRule] := rfl
  rw [hrules, Comparison.firstAnswer_append (rules_of_maskedBits hleft _),
    Comparison.firstAnswer_singleton]
  unfold bitsRule
  simp only [hleft, hinteger, if_true, hknown, hn]
  cases l.asInt? with
  | none => rfl
  | some c =>
    simp only [Option.bind_some, target_of_fieldPath? hf hp]
    cases bitOperator? op n c <;> rfl

variable (hcheck : (Scope.root p.name).check mask = .ok ())
  (hright : (Scope.root p.name).check right = .ok ()) (hop : op.isComparison = true)
include hcheck hright hop

/-- If there is an operator for the comparison, it is asked of the field, with the mask. -/
theorem filter_of_bitOperator? (h : right.knownInt?.bind (bitOperator? op n) = some name) :
    m.filter (.lambda [p] (.binary op left right)) = .ok (testOp f.dotted name known.value) ∧
      m.filter (.lambda [p] (.binary op.flip right left)) =
        .ok (testOp f.dotted name known.value) := by
  obtain ⟨c, hc, hname⟩ := Option.bind_eq_some_iff.1 h
  obtain ⟨l, hl, hc⟩ := Option.bind_eq_some_iff.1 hc
  refine filter_of_answer hop (known?_of_maskedBits hleft) (check_maskedBits hf hleft hcheck)
    ⟨hl, hright⟩ ?_
  rw [firstAnswer_maskedBits hf hp hinteger hleft hknown hn, hc, Option.bind_some, hname]
  rfl

/-- If there is none, masked bits are compared like what is not stored. -/
theorem filter_of_bitOperator?_eq_none (h : right.knownInt?.bind (bitOperator? op n) = none) :
    m.filter (.lambda [p] (.binary op left right)) =
        .error (.unsupported (.binary op left right)) ∧
      m.filter (.lambda [p] (.binary op.flip right left)) =
        .error (.unsupported (.binary op.flip right left)) := by
  have hfield : m.schema.fieldPath? left = .ok none := by
    rw [← Schema.fieldPath?_strip, hleft]
    rfl
  have htest : left.isTest = false := by
    simp [Expr.isTest, hleft]
  refine filter_of_unstored hop (known?_of_maskedBits hleft) htest hfield
    (check_maskedBits hf hleft hcheck) hright fun l hl => ?_
  rw [Expr.knownInt?, hl, Option.bind_some] at h
  rw [firstAnswer_maskedBits hf hp hinteger hleft hknown hn, h]
  rfl

end Masked

/-- **Bits of a stored integer.** They are masked by a constant and compared, by any of the six
operators and in either order of the sides. For equality and inequality with zero and with the mask
there is a filter, and it accepts just the integers that compare as they should when they are
masked. Anything else is not supported. -/
theorem filter_maskedBits (hf : m.schema.fieldPath? e = .ok (some f)) (hp : f.param = p.name)
    (hinteger : (m.schema.typeOf e).isInteger = true) (hleft : left.strip = .binary .and e mask)
    (hmask : mask.knownInt? = some bits.toInt) (hcheck : (Scope.root p.name).check mask = .ok ())
    (hright : (Scope.root p.name).check right = .ok ()) (hop : op.isComparison = true) :
    ((op = .equal ∨ op = .notEqual) ∧
        (right.knownInt? = some 0 ∨ right.knownInt? = some bits.toInt) →
      ∃ q,
        m.filter (.lambda [p] (.binary op left right)) = .ok q ∧
        m.filter (.lambda [p] (.binary op.flip right left)) = .ok q ∧
        ∀ v c : Int64, right.knownInt? = some c.toInt →
          (holds (.ofInteger f.dotted v) q = true ↔ op.Relates (v &&& bits).toInt c.toInt) ∧
          (holds (.ofInteger f.dotted v) q = true ↔
            op.flip.Relates c.toInt (v &&& bits).toInt)) ∧
    (¬((op = .equal ∨ op = .notEqual) ∧
        (right.knownInt? = some 0 ∨ right.knownInt? = some bits.toInt)) →
      m.filter (.lambda [p] (.binary op left right)) =
        .error (.unsupported (.binary op left right)) ∧
      m.filter (.lambda [p] (.binary op.flip right left)) =
        .error (.unsupported (.binary op.flip right left))) := by
  obtain ⟨known, hknown, hn⟩ := Option.bind_eq_some_iff.1 hmask
  constructor
  · intro haccepted
    obtain ⟨hequality, hnumber⟩ := haccepted
    obtain ⟨c, hc, hzero⟩ : ∃ c : Int64, right.knownInt? = some c.toInt ∧
        (c.toInt = 0 ∨ c.toInt = bits.toInt) := by
      rcases hnumber with hnumber | hnumber
      · exact ⟨0, hnumber, .inl rfl⟩
      · exact ⟨bits, hnumber, .inr rfl⟩
    obtain ⟨name, hname⟩ : ∃ name, bitOperator? op bits.toInt c.toInt = some name := by
      rw [← Option.ne_none_iff_exists', ne_eq, bitOperator?_eq_none_iff, not_not]
      exact ⟨hequality, hzero⟩
    obtain ⟨hfilter, hflipped⟩ := filter_of_bitOperator? hf hp hinteger hleft hknown hn hcheck
      hright hop (by rw [hc, Option.bind_some, hname])
    refine ⟨_, hfilter, hflipped, fun v c' hc' => ?_⟩
    have hsame : c' = c := Int64.toInt_inj.1 (Option.some.inj (hc'.symm.trans hc))
    rw [BinaryOp.relates_flip, and_self, hsame]
    exact holds_bits hname hn f.dotted v
  · intro hrefused
    refine filter_of_bitOperator?_eq_none hf hp hinteger hleft hknown hn hcheck hright hop ?_
    cases hc : right.knownInt? with
    | none => rfl
    | some c =>
      rw [hc, Option.some.injEq, Option.some.injEq] at hrefused
      exact bitOperator?_eq_none_iff.2 hrefused

/-- Documents with flags. -/
def flagsMapping : Mapping :=
  { schema := {
      documents := [
        { name := "Root"
          members := [⟨"Flags", "flags", .int32, .natural⟩] }] } }

/-- The flags from the fourth on, all of them, the sign included. -/
def upperFlags : Expr :=
  .binary .and (.member (.param ⟨"x", .document "Root"⟩) "Flags")
    (.negate (.literal ⟨.int32 8, .int32⟩))

/-- All upper flags are set in -6, but not in 6; that they are less than the mask cannot be
asked. -/
theorem filter_maskedBits_upperFlags :
    (∃ q,
      flagsMapping.filter (.lambda [⟨"x", .document "Root"⟩]
        (.binary .equal upperFlags (.literal ⟨.int64 (-8), .int64⟩))) = .ok q ∧
      flagsMapping.filter (.lambda [⟨"x", .document "Root"⟩]
        (.binary .equal (.literal ⟨.int64 (-8), .int64⟩) upperFlags)) = .ok q ∧
      holds (.ofInteger "flags" (-6)) q = true ∧ holds (.ofInteger "flags" 6) q = false) ∧
    flagsMapping.filter (.lambda [⟨"x", .document "Root"⟩]
        (.binary .less upperFlags (.literal ⟨.int64 (-8), .int64⟩))) =
      .error (.unsupported (.binary .less upperFlags (.literal ⟨.int64 (-8), .int64⟩))) := by
  have hleft : upperFlags.strip = .binary .and (.member (.param ⟨"x", .document "Root"⟩) "Flags")
      (.negate (.literal ⟨.int32 8, .int32⟩)) := rfl
  have hmask : Expr.knownInt? (.negate (.literal ⟨.int32 8, .int32⟩)) = some (-8 : Int64).toInt :=
    rfl
  have hright : Expr.knownInt? (.literal ⟨.int64 (-8), .int64⟩) = some (-8 : Int64).toInt := rfl
  have hcheck : (Scope.root "x").check (.literal ⟨.int64 (-8), .int64⟩) = .ok () := rfl
  have hspec (op : BinaryOp) (hop : op.isComparison = true) :=
    filter_maskedBits (m := flagsMapping) (p := ⟨"x", .document "Root"⟩)
      (f := ⟨"x", ["flags"], .int32, .natural, false⟩) rfl rfl rfl hleft hmask rfl hcheck hop
  obtain ⟨q, hfilter, hflipped, hexact⟩ := (hspec .equal rfl).1 ⟨.inl rfl, .inr hright⟩
  refine ⟨⟨q, hfilter, hflipped, (hexact (-6) (-8) hright).1.2 rfl, Bool.eq_false_iff.2 ?_⟩,
    ((hspec .less rfl).2 (by simp)).1⟩
  intro h
  have hsix : ((6 : Int64) &&& -8).toInt = (-8 : Int64).toInt := (hexact 6 (-8) hright).1.1 h
  exact absurd hsix (by decide)

end Mapping
end DocQuery
