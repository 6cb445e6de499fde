/-
Sizes of the parts of an expression. What a reading of an expression looks at
after a step - an operand, an argument, the body of a lambda, the receiver form
of a call - is smaller than the expression.
-/
import DocQuery.Expr.Basic

namespace DocQuery.Expr

theorem size_pos (e : Expr) : 0 < e.size := by
  cases e with
  | collection kind source items => cases source <;> simp [size]
  | _ => simp [size]

theorem size_strip_le (e : Expr) : e.strip.size ≤ e.size := by
  fun_induction strip e with
  | case1 inner ih => simp only [size]; omega
  | case2 operand type ih => simp only [size]; omega
  | case3 e => exact Nat.le_refl _

theorem size_le_sizes {e : Expr} {es : List Expr} (h : e ∈ es) : e.size ≤ sizes es := by
  induction es with
  | nil => cases h
  | cons x rest ih =>
    simp only [sizes]
    rcases List.mem_cons.1 h with rfl | h
    · omega
    · have := ih h; omega

theorem size_le_memberSizes {m : String × Expr} {ms : List (String × Expr)} (h : m ∈ ms) :
    m.2.size ≤ memberSizes ms := by
  induction ms with
  | nil => cases h
  | cons x rest ih =>
    simp only [memberSizes]
    rcases List.mem_cons.1 h with rfl | h
    · omega
    · have := ih h; omega

theorem size_lt_of_asLambda? {e body : Expr} {params : List Param}
    (h : e.asLambda? = some (params, body)) : body.size < e.size := by
  fun_induction asLambda? e with
  | case1 ps b => cases h; simp only [size]; omega
  | case2 inner ih => have := ih h; simp only [size]; omega
  | case3 e => cases h

theorem size_lt_of_asUnaryLambda? {e body : Expr} {p : Param}
    (h : e.asUnaryLambda? = some (p, body)) : body.size < e.size := by
  unfold asUnaryLambda? at h
  split at h
  · next q b hl => cases h; exact size_lt_of_asLambda? hl
  · cases h

/-- The receiver form is smaller, which is why a call on a class counts twice. -/
theorem size_lt_of_receiverForm? {e call : Expr} (h : e.receiverForm? = some call) :
    call.size < e.size := by
  unfold receiverForm? at h
  split at h
  · split at h
    · cases h; simp only [size, sizes]; omega
    · cases h
  · cases h

end DocQuery.Expr
