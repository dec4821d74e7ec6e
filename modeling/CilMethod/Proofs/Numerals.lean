import CilMethod.Text.Numeral
import Mathlib.Tactic.IntervalCases

/-!
# Numbers are read as they are written

Writing a number puts the last digit behind the digits of the rest, and reading goes on behind what
is read so far, so the two undo each other digit by digit (`readDigits?_toDigits`). Zeros in front
change nothing. No digit is a sign, and so the readers that admit a sign are not misled by one
(`readUnsigned?_toDigits`, `readSigned?_signedDecimal`).
-/

namespace CilMethod.Text

variable {base bound n : Nat}

theorem digitValue?_digitChar (hn : n < 16) : digitValue? n.digitChar = some n := by
  interval_cases n <;> rfl

theorem isAlphanum_digitChar (hn : n < 16) : n.digitChar.isAlphanum = true := by
  interval_cases n <;> rfl

theorem readDigits?_append : ∀ (cs ds : List Char) (n : Nat),
    readDigits? base n (cs ++ ds) = (readDigits? base n cs).bind (readDigits? base · ds)
  | [], ds, n => rfl
  | c :: cs, ds, n => by
    simp only [List.cons_append, readDigits?]
    split
    · split_ifs
      · exact readDigits?_append cs ds _
      · rfl
    · rfl

theorem readDigits?_digitChar {d : Nat} (hbase : base ≤ 16) (hd : d < base) (n : Nat) :
    readDigits? base n [d.digitChar] = some (base * n + d) := by
  rw [readDigits?, digitValue?_digitChar (by omega)]
  simp [hd, readDigits?]

theorem readDigits?_toDigits (hbase : 1 < base) (hbase' : base ≤ 16) (n : Nat) :
    readDigits? base 0 (Nat.toDigits base n) = some n := by
  induction n using Nat.strong_induction_on with
  | h n ih =>
    rw [Nat.toDigits_eq_if hbase]
    split_ifs with hn
    · simpa using readDigits?_digitChar hbase' hn 0
    · have hlt : n / base < n := Nat.div_lt_self (by omega) hbase
      rw [readDigits?_append, ih _ hlt, Option.bind_some,
        readDigits?_digitChar hbase' (Nat.mod_lt n (by omega)), Nat.div_add_mod]

theorem readDigits?_zeros (hbase : 0 < base) (count : Nat) (cs : List Char) :
    readDigits? base 0 (List.replicate count '0' ++ cs) = readDigits? base 0 cs := by
  induction count with
  | zero => rfl
  | succ count ih =>
    have hzero : digitValue? '0' = some 0 := rfl
    rw [List.replicate_succ, List.cons_append, readDigits?, hzero]
    simpa [hbase] using ih

theorem exists_of_mem_toDigits (hbase : 1 < base) {c : Char} (h : c ∈ Nat.toDigits base n) :
    ∃ d < base, c = d.digitChar := by
  induction n using Nat.strong_induction_on with
  | h n ih =>
    rw [Nat.toDigits_eq_if hbase] at h
    split_ifs at h with hn
    · exact ⟨n, hn, by simpa using h⟩
    · rcases List.mem_append.1 h with h | h
      · exact ih _ (Nat.div_lt_self (by omega) hbase) h
      · exact ⟨n % base, Nat.mod_lt n (by omega), by simpa using h⟩

theorem isAlphanum_of_mem_toDigits (hbase : 1 < base) (hbase' : base ≤ 16) {c : Char}
    (h : c ∈ Nat.toDigits base n) : c.isAlphanum = true := by
  obtain ⟨d, hd, rfl⟩ := exists_of_mem_toDigits hbase h
  exact isAlphanum_digitChar (by omega)

theorem letter_notMem_decimal : 'V' ∉ decimal n := by
  intro h
  obtain ⟨d, hd, heq⟩ := exists_of_mem_toDigits (by omega) h
  interval_cases d <;> cases heq

theorem toDigits_ne_nil (hbase : 1 < base) : Nat.toDigits base n ≠ [] := by
  rw [Nat.toDigits_eq_if hbase]
  split_ifs <;> simp

/-- Digits, with any number of zeros in front, are read without a sign. -/
theorem readUnsigned?_toDigits (hbase : 1 < base) (hbase' : base ≤ 16) (hn : n < bound)
    (zeros : Nat) :
    readUnsigned? base bound (List.replicate zeros '0' ++ Nat.toDigits base n) = some n := by
  have hread : readNat? base (List.replicate zeros '0' ++ Nat.toDigits base n) = some n := by
    rw [readNat?, if_neg (by simp [toDigits_ne_nil hbase]), readDigits?_zeros (by omega),
      readDigits?_toDigits hbase hbase']
  unfold readUnsigned?
  split
  · rename_i rest hplus
    have hmem : '+' ∈ List.replicate zeros '0' ++ Nat.toDigits base n := by simp [hplus]
    rcases List.mem_append.1 hmem with h | h
    · exact absurd (List.eq_of_mem_replicate h) (by decide)
    · exact absurd (isAlphanum_of_mem_toDigits hbase hbase' h) (by decide)
  · dsimp only
    rw [hread]
    simp [hn]

theorem readUnsigned?_decimal (hn : n < bound) : readUnsigned? 10 bound (decimal n) = some n :=
  readUnsigned?_toDigits (by omega) (by omega) hn 0

theorem readUnsigned?_hexadecimal (width : Nat) (hn : n < bound) :
    readUnsigned? 16 bound (hexadecimal width n) = some n :=
  readUnsigned?_toDigits (by omega) (by omega) hn _

theorem readSigned?_signedDecimal {n : Int} (hlow : -bound ≤ n) (hhigh : n < bound) :
    readSigned? bound (signedDecimal n) = some n := by
  unfold signedDecimal
  split_ifs with hn
  · have hread : readNat? 10 (decimal n.natAbs) = some n.natAbs := by
      have hne : decimal n.natAbs ≠ [] := toDigits_ne_nil (by omega)
      rw [readNat?, if_neg (by simpa using hne), decimal,
        readDigits?_toDigits (by omega) (by omega)]
    rw [readSigned?, hread, Option.bind_some, if_pos (by omega)]
    congr 1
    omega
  · have hminus : '-' ∉ decimal n.natAbs := fun h =>
      absurd (isAlphanum_of_mem_toDigits (by omega) (by omega) h) (by decide)
    unfold readSigned?
    split
    · rename_i rest heq
      rw [heq] at hminus
      simp at hminus
    · rw [readUnsigned?_decimal (by omega), Option.map_some]
      congr 1
      exact Int.natAbs_of_nonneg (by omega)

/-- A written number holds digits and at most a minus sign in front. -/
theorem mem_signedDecimal {n : Int} {c : Char} (h : c ∈ signedDecimal n) :
    c = '-' ∨ c.isAlphanum = true := by
  unfold signedDecimal at h
  split_ifs at h with hn
  · rcases List.mem_cons.1 h with rfl | h
    · exact .inl rfl
    · exact .inr (isAlphanum_of_mem_toDigits (by omega) (by omega) h)
  · exact .inr (isAlphanum_of_mem_toDigits (by omega) (by omega) h)

theorem isAlphanum_of_mem_hexadecimal {width : Nat} {c : Char} (h : c ∈ hexadecimal width n) :
    c.isAlphanum = true := by
  rcases List.mem_append.1 h with h | h
  · rw [List.eq_of_mem_replicate h]
    rfl
  · exact isAlphanum_of_mem_toDigits (by omega) (by omega) h

end CilMethod.Text
