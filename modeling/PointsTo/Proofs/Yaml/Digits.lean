import Mathlib.Data.Nat.Digits.Defs
import PointsTo.Yaml.Writer

/-!
# Digits read back

Numbers are written with the digits of their base, most significant first: whole numbers in base
ten, the code points of escaped characters in base sixteen with capitals and filled up with zeros.
Reading the digits gives the number.
-/

namespace PointsTo.Yaml

/-- Digits of which each is read as itself are read as the number. -/
theorem mapM_toDigits {base : Nat} (hbase : 1 < base) (read : Char → Option Nat)
    (hread : ∀ d < base, read d.digitChar = some d) (n : Nat) :
    ∃ ds, (Nat.toDigits base n).mapM read = some ds ∧
      ds.foldl (fun acc d => acc * base + d) 0 = n := by
  induction n using Nat.strongRecOn with
  | ind n ih =>
    rw [Nat.toDigits_eq_if hbase]
    split
    · rename_i hlt
      exact ⟨[n], by simp [hread n hlt], by simp⟩
    · rename_i hge
      have hpos : 0 < n := by omega
      obtain ⟨ds, hds, hval⟩ := ih (n / base) (Nat.div_lt_self hpos hbase)
      have hlast := hread (n % base) (Nat.mod_lt n (by omega))
      refine ⟨ds ++ [n % base], by simp [List.mapM_append, hds, hlast], ?_⟩
      rw [List.foldl_append, hval, List.foldl_cons, List.foldl_nil, Nat.mul_comm]
      exact Nat.div_add_mod n base

/-! ## Base ten -/

theorem isDigit_of_mem_toDigits {n : Nat} {c : Char} (h : c ∈ Nat.toDigits 10 n) :
    isDigit c = true := by
  have hdigit := Nat.isDigit_of_mem_toDigits (by decide) (by decide) h
  simpa [isDigit, Char.isDigit, Char.le_def] using hdigit

/-- A number that is not zero does not start with a zero. -/
theorem toDigits_ne_cons_zero {n : Nat} (hn : 0 < n) (rest : List Char) :
    Nat.toDigits 10 n ≠ '0' :: rest := by
  induction n using Nat.strongRecOn generalizing rest with
  | ind n ih =>
    rw [Nat.toDigits_eq_if (by decide)]
    split
    · intro h
      rw [List.cons.injEq, Nat.digitChar_eq_zero] at h
      omega
    · intro h
      have hrec := ih (n / 10) (by omega) (by omega)
      cases hds : Nat.toDigits 10 (n / 10) with
      | nil => exact Nat.toDigits_ne_nil hds
      | cons d ds =>
        rw [hds, List.cons_append, List.cons.injEq] at h
        exact hrec ds (hds.trans (by rw [h.1]))

theorem digits?_toDigits (n : Nat) : digits? 10 (Nat.toDigits 10 n) = some n := by
  obtain ⟨ds, hds, hval⟩ := mapM_toDigits (by decide : 1 < 10)
    (fun c => (hexDigit? c).filter (· < 10)) (by decide) n
  have hne : (Nat.toDigits 10 n).isEmpty = false := by simp [Nat.toDigits_ne_nil]
  simp [digits?, hne, hds, hval]

theorem magnitude?_toDigits (n : Nat) : magnitude? (Nat.toDigits 10 n) = some n := by
  rcases Nat.eq_zero_or_pos n with rfl | hn
  · rfl
  · have hhead := toDigits_ne_cons_zero hn
    have hneedless : hasNeedlessZero (Nat.toDigits 10 n) = false := by
      unfold hasNeedlessZero unsigned
      split
      · rename_i rest h
        split at h
        · rename_i hsign
          exact absurd (isDigit_of_mem_toDigits (hsign ▸ List.mem_cons_self)) (by decide)
        · rename_i hsign
          exact absurd (isDigit_of_mem_toDigits (hsign ▸ List.mem_cons_self)) (by decide)
        · exact absurd h (hhead rest)
      · rfl
    unfold magnitude?
    split
    · rename_i h
      exact absurd h (hhead _)
    · rename_i h
      exact absurd h (hhead _)
    · rename_i h
      exact absurd h (hhead _)
    · rw [hneedless]
      exact digits?_toDigits n

/-- Whole numbers are read back. -/
theorem nat?_toString (n : Nat) : nat? (toString n) = some n := by
  rw [nat?, Nat.toString_eq_ofList_toDigits, String.toList_ofList]
  split
  · rename_i rest h
    have hplus : isDigit '+' = true := isDigit_of_mem_toDigits (by rw [h]; simp)
    exact absurd hplus (by decide)
  · exact magnitude?_toDigits n

/-! ## Base sixteen -/

theorem hexDigit?_toUpper : ∀ d < 16, hexDigit? d.digitChar.toUpper = some d := by
  decide

theorem mapM_zeros (n : Nat) : ∃ ds, (List.replicate n '0').mapM hexDigit? = some ds ∧
    ds.foldl (fun acc d => acc * 16 + d) 0 = 0 := by
  induction n with
  | zero => exact ⟨[], rfl, rfl⟩
  | succ n ih =>
    obtain ⟨ds, hds, hval⟩ := ih
    have hzero : hexDigit? '0' = some 0 := by decide
    exact ⟨0 :: ds, by simp [List.replicate_succ, hds, hzero], by simpa using hval⟩

theorem exists_of_mem_toDigits {base : Nat} (hbase : 1 < base) {n : Nat} {c : Char}
    (h : c ∈ Nat.toDigits base n) : ∃ d < base, c = d.digitChar := by
  induction n using Nat.strongRecOn with
  | ind n ih =>
    rw [Nat.toDigits_eq_if hbase] at h
    split at h
    · rename_i hlt
      exact ⟨n, hlt, List.mem_singleton.1 h⟩
    · rename_i hge
      rcases List.mem_append.1 h with h | h
      · exact ih (n / base) (Nat.div_lt_self (by omega) hbase) h
      · exact ⟨n % base, Nat.mod_lt n (by omega), List.mem_singleton.1 h⟩

theorem isPrintable_paddedHex {width n : Nat} {c : Char} (h : c ∈ paddedHex width n) :
    isPrintable c = true := by
  rcases List.mem_append.1 h with h | h
  · rw [List.eq_of_mem_replicate h]
    decide
  · obtain ⟨x, hx, rfl⟩ := List.mem_map.1 h
    obtain ⟨d, hd, rfl⟩ := exists_of_mem_toDigits (by decide) hx
    have hall : ∀ d < 16, isPrintable d.digitChar.toUpper = true := by decide
    exact hall d hd

theorem length_paddedHex {width n : Nat} (hwidth : 0 < width) (hn : n < 16 ^ width) :
    (paddedHex width n).length = width := by
  have hle := (Nat.length_toDigits_le_iff (by decide : 1 < 16) hwidth).2 hn
  simp only [paddedHex, List.length_append, List.length_replicate, List.length_map]
  omega

/-- The digits of a code point stand for the character, whatever follows them. -/
theorem hexChar?_paddedHex {width : Nat} (hwidth : 0 < width) {c : Char}
    (hc : c.toNat < 16 ^ width) (rest : List Char) :
    hexChar? (paddedHex width c.toNat ++ rest) width = some c := by
  have hlen := length_paddedHex hwidth hc
  have htake : (paddedHex width c.toNat ++ rest).take width = paddedHex width c.toNat := by
    rw [List.take_append_of_le_length (by omega), List.take_of_length_le (by omega)]
  obtain ⟨ds, hds, hval⟩ := mapM_toDigits (by decide : 1 < 16) (fun d => hexDigit? d.toUpper)
    hexDigit?_toUpper c.toNat
  obtain ⟨zs, hzs, hzero⟩ :=
    mapM_zeros (width - ((Nat.toDigits 16 c.toNat).map Char.toUpper).length)
  have hread : (paddedHex width c.toNat).mapM hexDigit? = some (zs ++ ds) := by
    rw [paddedHex, List.mapM_append, hzs, List.mapM_map]
    simp [Function.comp_def, hds]
  have hvalid : c.toNat < 0xD800 ∨ 0xDFFF < c.toNat ∧ c.toNat < 0x110000 := c.valid
  have hlong : ¬(paddedHex width c.toNat ++ rest).length < width := by
    rw [List.length_append]
    omega
  rw [hexChar?, if_neg hlong]
  simp [htake, hread, hzero, hval]
  omega

end PointsTo.Yaml
