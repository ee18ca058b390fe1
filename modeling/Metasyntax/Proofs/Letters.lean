import Metasyntax.Text.Lowercase

/-!
# Letters compared without regard to case

The only character beyond ASCII that is lowered to one of ASCII is the sign for degrees
Kelvin. A letter other than k has two spellings therefore, and any other character one.
-/

set_option autoImplicit false

namespace Metasyntax

theorem char_le_iff (a b : Char) : a ≤ b ↔ a.toNat ≤ b.toNat := by
  rw [Char.le_def, UInt32.le_iff_toNat_le]
  rfl

def kelvin : Nat := 0x212A

theorem lowercaseRuns_checked : ∀ run ∈ lowercaseRuns, (run.first = kelvin ∧ run.last = kelvin) ∨
    (0x80 ≤ (run.first : Int) + run.distance ∧ (run.last : Int) + run.distance < 0xD800) ∨
    (0xE000 ≤ (run.first : Int) + run.distance ∧ (run.last : Int) + run.distance < 0x110000) := by
  decide +kernel

theorem lowercaseCode_valid {code : Nat} (hlarge : 0x80 ≤ code) (hkelvin : code ≠ kelvin)
    (hvalid : code.isValidChar) : 0x80 ≤ lowercaseCode code ∧ (lowercaseCode code).isValidChar := by
  rw [lowercaseCode]
  split
  case h_1 run hrun =>
    have hmem := List.mem_of_find?_eq_some hrun
    have hcovers := List.find?_some hrun
    simp only [LowercaseRun.covers, Bool.and_eq_true, decide_eq_true_eq] at hcovers
    simp only [Nat.isValidChar]
    rcases lowercaseRuns_checked run hmem with h | h | h
    · omega
    · omega
    · omega
  case h_2 => exact ⟨hlarge, hvalid⟩

theorem toNat_ofNat_of_valid {code : Nat} (h : code.isValidChar) : (Char.ofNat code).toNat = code := by
  rw [Char.ofNat, dif_pos h]
  rfl

theorem forall_ascii {P : Char → Prop} (h : ∀ code < 0x80, P (Char.ofNat code)) {c : Char}
    (hc : c.toNat < 0x80) : P c := by
  rw [← Char.ofNat_toNat c]
  exact h c.toNat hc

theorem toLower_eq_self {c : Char} (h : 0x80 ≤ c.toNat) : c.toLower = c := by
  refine dif_neg ?_
  rintro ⟨-, hle⟩
  have hle : c.toNat ≤ 90 := hle
  omega

theorem toNat_toLower_lt {c : Char} (hc : c.toNat < 0x80) : c.toLower.toNat < 0x80 :=
  forall_ascii (P := fun c => c.toLower.toNat < 0x80) (by decide) hc

theorem toLower_toLower {c : Char} (hc : c.toNat < 0x80) : c.toLower.toLower = c.toLower :=
  forall_ascii (P := fun c => c.toLower.toLower = c.toLower) (by decide) hc

theorem toLower_toUpper {c : Char} (hc : c.toNat < 0x80) : c.toUpper.toLower = c.toLower :=
  forall_ascii (P := fun c => c.toUpper.toLower = c.toLower) (by decide) hc

theorem eq_spelling {c : Char} (hc : c.toNat < 0x80) :
    c = c.toLower ∨ c = c.toLower.toUpper :=
  forall_ascii (P := fun c => c = c.toLower ∨ c = c.toLower.toUpper) (by decide) hc

theorem toUpper_toLower {c : Char} (hc : c.toNat < 0x80) : c.toLower.toUpper = c.toUpper :=
  forall_ascii (P := fun c => c.toLower.toUpper = c.toUpper) (by decide) hc

/-- Two characters of ASCII are one letter when their lowercase forms are one. -/
theorem sameLetter_eq_true_iff {e c : Char} (he : e.toNat < 0x80) (hk : e.toLower ≠ 'k') :
    sameLetter e c = true ↔ e.toLower = c.toLower := by
  have hlower : lowerChar e = [e.toLower] := if_pos he
  have hsmall : e.toLower.toNat < 0x80 := toNat_toLower_lt he
  rw [sameLetter, Bool.or_eq_true, beq_iff_eq, beq_iff_eq, hlower]
  by_cases hc : c.toNat < 0x80
  · rw [lowerChar, if_pos hc, List.cons.injEq, and_iff_left rfl]
    constructor
    · rintro (rfl | h)
      · rfl
      · exact h
    · exact Or.inr
  · have hne : e.toLower ≠ c.toLower := by
      intro h
      rw [h, toLower_eq_self (by omega)] at hsmall
      exact hc hsmall
    refine iff_of_false ?_ hne
    rintro (rfl | h)
    · exact hc he
    · rw [lowerChar, if_neg hc] at h
      split at h
      case isTrue => exact absurd (congrArg List.length h) (by simp)
      case isFalse =>
        rw [List.cons.injEq, and_iff_left rfl] at h
        by_cases hkelvin : c.toNat = kelvin
        · rw [hkelvin] at h
          exact hk (h.trans (by decide +kernel))
        · have hcode := lowercaseCode_valid (by omega) hkelvin c.valid
          rw [h, toNat_ofNat_of_valid hcode.2] at hsmall
          omega

/-- The spellings of a character of ASCII. -/
theorem sameLetter_iff_spelling {e c : Char} (he : e.toNat < 0x80) (hk : e.toLower ≠ 'k') :
    sameLetter e c = true ↔ c = e.toLower ∨ c = e.toUpper := by
  rw [sameLetter_eq_true_iff he hk]
  constructor
  · intro h
    have hc : c.toNat < 0x80 := by
      have hsmall := toNat_toLower_lt he
      by_cases hc : c.toNat < 0x80
      · exact hc
      · rwa [h, toLower_eq_self (by omega)] at hsmall
    rw [← toUpper_toLower he, h]
    exact eq_spelling hc
  · rintro (rfl | rfl)
    · exact (toLower_toLower he).symm
    · exact (toLower_toUpper he).symm

end Metasyntax
