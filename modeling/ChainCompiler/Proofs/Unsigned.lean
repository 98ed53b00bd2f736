import ChainCompiler.Number.Shortest
import ChainCompiler.Proofs.Numeral
import ChainCompiler.Proofs.Script.Literals

/-! Numbers without a sign. All numerals stand for such, and the text of such a number consists of digits and points, or
is the word for infinity. -/

namespace ChainCompiler

open Script (isHarmless Harmless)

def Double.Unsigned (v : Double) : Prop := v = .infinite false ∨ ∃ size, v = .finite false size

namespace Double

theorem unsigned_ofRounded (mantissa : Nat) (exponent : Int) : (ofRounded false mantissa exponent).Unsigned := by
  unfold ofRounded
  split
  · exact .inr ⟨_, rfl⟩
  · exact .inl rfl

theorem unsigned_ofRatio (num den : Nat) : (ofRatio false num den).Unsigned := by
  unfold ofRatio
  dsimp only
  split
  · exact unsigned_ofRounded _ _
  · exact unsigned_ofRounded _ _

theorem unsigned_ofDecimal (digits : Nat) (exponent : Int) : (ofDecimal false digits exponent).Unsigned := by
  unfold ofDecimal
  dsimp only
  split
  · exact .inr ⟨_, rfl⟩
  · split
    · exact .inl rfl
    · exact unsigned_ofRatio _ _

theorem unsigned_of_read? {text : String} (h : IsNumeral text) {v : Double} (hv : read? text = some v) :
    v.Unsigned := by
  obtain ⟨digits, exponent, hread⟩ := read?_eq_ofDecimal h
  rw [hread] at hv
  cases hv
  exact unsigned_ofDecimal digits exponent

end Double

def isFigure (c : Char) : Bool := c.isDigit || c == '.'

theorem isFigure_of_mem_toDigits {n : Nat} : ∀ c ∈ Nat.toDigits 10 n, isFigure c = true := by
  intro c hc
  have hdigit := Nat.isDigit_of_mem_toDigits (b := 10) (by decide) (by decide) hc
  rw [isFigure, hdigit, Bool.true_or]

theorem isFigure_of_mem_positional {d : Decimal} : ∀ c ∈ d.positional, isFigure c = true := by
  have hdigits : ∀ c ∈ Nat.toDigits 10 d.digits, isFigure c = true := isFigure_of_mem_toDigits
  have hzeros : ∀ n, ∀ c ∈ List.replicate n '0', isFigure c = true := by
    intro n c hc
    rw [List.eq_of_mem_replicate hc]
    decide
  have htake : ∀ n, ∀ c ∈ (Nat.toDigits 10 d.digits).take n, isFigure c = true :=
    fun n c hc => hdigits c (List.mem_of_mem_take hc)
  have hdrop : ∀ n, ∀ c ∈ (Nat.toDigits 10 d.digits).drop n, isFigure c = true :=
    fun n c hc => hdigits c (List.mem_of_mem_drop hc)
  unfold Decimal.positional
  dsimp only
  split
  · exact List.forall_mem_append.2 ⟨hdigits, hzeros _⟩
  · split
    · exact List.forall_mem_append.2 ⟨htake _, List.forall_mem_cons.2 ⟨by decide, hdrop _⟩⟩
    · refine List.forall_mem_append.2 ⟨?_, hdigits⟩
      exact List.forall_mem_cons.2 ⟨by decide, List.forall_mem_cons.2 ⟨by decide, hzeros _⟩⟩

theorem isFigure_of_mem_text {x : Magnitude} : ∀ c ∈ x.text, isFigure c = true := by
  unfold Magnitude.text
  split
  · exact List.forall_mem_singleton.2 (by decide)
  · exact isFigure_of_mem_positional

theorem harmless_of_isFigure {c : Char} (h : isFigure c = true) : isHarmless c = true := by
  rw [isFigure, Bool.or_eq_true, beq_iff_eq] at h
  rcases h with h | rfl
  · simp [isHarmless, Char.isAlphanum, h]
  · decide

theorem harmless_toDigits (n : Nat) : Harmless (Nat.toDigits 10 n) :=
  fun c hc => harmless_of_isFigure (isFigure_of_mem_toDigits c hc)

theorem Double.Unsigned.harmless_toText {v : Double} (h : v.Unsigned) : Harmless v.toText.toList := by
  rcases h with rfl | ⟨size, rfl⟩
  · decide
  · rw [Double.toText, String.toList_ofList, if_neg (by decide)]
    exact fun c hc => harmless_of_isFigure (isFigure_of_mem_text c hc)

end ChainCompiler
