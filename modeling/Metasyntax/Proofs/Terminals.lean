import Metasyntax.Proofs.Acceptance
import Metasyntax.Proofs.Places

/-!
# Terminals at the level of bytes

Offsets count bytes, and characters of one letter can differ in length. A terminal
therefore stops where the stretch of the text ends that it was compared with, and not
where a text of its own length would.
-/

set_option autoImplicit false

namespace Metasyntax

theorem byteLength_eq_utf8ByteSize (cs : List Char) :
    byteLength cs = (String.ofList cs).utf8ByteSize := by
  induction cs with
  | nil => rfl
  | cons c cs ih =>
    have hcons : String.ofList (c :: cs) = String.singleton c ++ String.ofList cs := by
      rw [← String.toList_inj]
      simp
    rw [byteLength, ih, hcons, String.utf8ByteSize_append, String.utf8ByteSize_singleton]

theorem byteLength_toList (text : String) : byteLength text.toList = text.utf8ByteSize := by
  rw [byteLength_eq_utf8ByteSize, String.ofList_toList]

def LowerAlike (a b : Char) : Prop := lowerChar a = lowerChar b

theorem forall₂_lowerAlike_iff {cs ds : List Char} :
    List.Forall₂ LowerAlike cs ds ↔ cs.map lowerChar = ds.map lowerChar := by
  rw [← List.forall₂_eq_eq_eq, List.forall₂_map_left_iff, List.forall₂_map_right_iff]
  rfl

theorem sameLetter_iff_lowerAlike {a b : Char} : sameLetter a b = true ↔ LowerAlike a b := by
  rw [sameLetter, Bool.or_eq_true, beq_iff_eq, beq_iff_eq]
  constructor
  · rintro (rfl | h)
    · rfl
    · exact h
  · exact Or.inr

def Source.Holds (source : Source) (start : Nat) (stretch : String) : Prop :=
  ∃ before after, source.text = before ++ stretch ++ after ∧ before.utf8ByteSize = start

theorem Source.holds_iff {source : Source} {start : Nat} {stretch : String} :
    source.Holds start stretch ↔ ∃ after, source.rest start = some (stretch.toList ++ after) := by
  simp only [rest_eq_some_iff]
  constructor
  · rintro ⟨before, after, htext, rfl⟩
    exact ⟨after.toList, before.toList, by simp [htext], byteLength_toList before⟩
  · rintro ⟨after, before, htext, rfl⟩
    refine ⟨.ofList before, .ofList after, ?_, (byteLength_eq_utf8ByteSize before).symm⟩
    rw [← String.toList_inj, htext]
    simp

theorem Source.Holds.isValid_stop {source : Source} {start : Nat} {stretch : String}
    (h : source.Holds start stretch) :
    (⟨start + stretch.utf8ByteSize⟩ : String.Pos.Raw).IsValid source.text := by
  obtain ⟨before, after, htext, rfl⟩ := h
  refine String.Pos.Raw.isValid_iff_exists_append.2 ⟨before ++ stretch, after, htext, ?_⟩
  rw [String.Pos.Raw.ext_iff, String.byteIdx_rawEndPos, String.utf8ByteSize_append]

namespace Literal
variable {source : Source} {start : Nat} {m : Match}

theorem consumeText_append_iff {same : Char → Char → Bool} {pattern taken after : List Char} :
    consumeText same pattern (taken ++ after) = some taken ↔
      List.Forall₂ (fun e c => same e c = true) pattern taken := by
  rw [← consumeText_eq_some_iff]
  exact ⟨consumeText_self, fun h => consumeText_append h after⟩

theorem consume_of_ne_nil {text : String} {caseSensitive : Bool} {rest : List Char}
    (h : rest ≠ []) : consume ⟨.text text, caseSensitive⟩ rest =
      consumeText (if caseSensitive then (· == ·) else sameLetter) text.toList rest := by
  obtain ⟨c, cs, rfl⟩ := List.exists_cons_of_ne_nil h
  rfl

theorem consume_nil (terminal : Literal) : terminal.consume [] = none := by
  obtain ⟨pattern, caseSensitive⟩ := terminal
  cases pattern <;> rfl

def leafOf (stretch : String) (start : Nat) : Match :=
  ⟨[.literal stretch start], start + stretch.utf8ByteSize⟩

/-- Either comparison of a text with what stands at an offset. -/
theorem matchAt_text_iff {text : String} {caseSensitive : Bool} :
    matchAt ⟨.text text, caseSensitive⟩ source start = some m ↔
      start < source.text.utf8ByteSize ∧ ∃ taken, source.Holds start taken ∧
        List.Forall₂ (fun e c => (if caseSensitive then e == c else sameLetter e c) = true)
          text.toList taken.toList ∧ m = leafOf taken start := by
  have hsame : (fun e c => (if caseSensitive then e == c else sameLetter e c) = true) =
      fun e c => (if caseSensitive then (· == ·) else sameLetter) e c = true := by
    cases caseSensitive <;> rfl
  rw [matchAt_eq_some_iff, hsame]
  constructor
  · rintro ⟨taken, after, hrest, hconsume, rfl⟩
    have hne : taken ++ after ≠ [] := by
      intro hnil
      rw [hnil, consume_nil] at hconsume
      cases hconsume
    have hsize := Source.add_byteLength_rest hrest
    have hpos : byteLength (taken ++ after) ≠ 0 := fun h => hne (byteLength_eq_zero.1 h)
    rw [consume_of_ne_nil hne, consumeText_append_iff] at hconsume
    rw [Source.size_eq, byteLength_toList] at hsize
    refine ⟨by omega, .ofList taken, Source.holds_iff.2 ⟨after, by simpa using hrest⟩,
      by simpa using hconsume, ?_⟩
    rw [leafOf, byteLength_eq_utf8ByteSize]
  · rintro ⟨hstart, taken, hholds, htaken, rfl⟩
    obtain ⟨after, hrest⟩ := Source.holds_iff.1 hholds
    have hsize := Source.add_byteLength_rest hrest
    rw [Source.size_eq, byteLength_toList] at hsize
    have hne : taken.toList ++ after ≠ [] := by
      intro hnil
      rw [hnil, byteLength] at hsize
      omega
    refine ⟨taken.toList, after, hrest, ?_, ?_⟩
    · rw [consume_of_ne_nil hne]
      exact consumeText_append_iff.2 htaken
    · rw [leafOf, byteLength_toList, String.ofList_toList]

theorem matchAt_lowered_iff {text : String} :
    (Literal.text text).matchAt source start = some m ↔
      start < source.text.utf8ByteSize ∧ ∃ taken, source.Holds start taken ∧
        List.Forall₂ LowerAlike text.toList taken.toList ∧ m = leafOf taken start := by
  have halike : LowerAlike = fun e c => sameLetter e c = true := by
    funext e c
    exact propext sameLetter_iff_lowerAlike.symm
  rw [halike]
  exact matchAt_text_iff

theorem matchAt_exact_iff {text : String} :
    (Literal.exact text).matchAt source start = some m ↔
      start < source.text.utf8ByteSize ∧ source.Holds start text ∧ m = leafOf text start := by
  have hequal : (fun e c : Char => (e == c) = true) = Eq := by
    funext e c
    exact propext beq_iff_eq
  refine matchAt_text_iff.trans (and_congr_right fun _ => ?_)
  simp only [if_true, hequal, List.forall₂_eq_eq_eq, String.toList_inj]
  constructor
  · rintro ⟨taken, hholds, rfl, rfl⟩
    exact ⟨hholds, rfl⟩
  · rintro ⟨hholds, rfl⟩
    exact ⟨text, hholds, rfl, rfl⟩

theorem matchAt_text_congr {text text' : String}
    (h : List.Forall₂ LowerAlike text.toList text'.toList) :
    (Literal.text text).matchAt source start = (Literal.text text').matchAt source start := by
  ext m
  rw [matchAt_lowered_iff, matchAt_lowered_iff]
  simp only [forall₂_lowerAlike_iff, forall₂_lowerAlike_iff.1 h]

/-- What the terminals of a text match at an offset, down to the bytes. The offset lies
short of the end and between two characters, the end does too unless it is that of the
text, and the leaf has the spelling that was found. -/
theorem matchAt_bytewise (text : String) (source : Source) (start : Nat) :
    (∀ m, (Literal.text text).matchAt source start = some m ↔
      start < source.text.utf8ByteSize ∧ ∃ taken, source.Holds start taken ∧
        List.Forall₂ LowerAlike text.toList taken.toList ∧
        m = ⟨[.literal taken start], start + taken.utf8ByteSize⟩) ∧
    (∀ m, (Literal.text text).matchAt source start = some m →
      (⟨start⟩ : String.Pos.Raw).IsValid source.text ∧
        (⟨m.stop⟩ : String.Pos.Raw).IsValid source.text ∧
        source.slice start m.stop = some m.value) ∧
    (∀ m, (Literal.exact text).matchAt source start = some m ↔
      start < source.text.utf8ByteSize ∧ source.Holds start text ∧
        m = ⟨[.literal text start], start + text.utf8ByteSize⟩) ∧
    (∀ m, (Literal.exact text).matchAt source start = some m →
      (Literal.text text).matchAt source start = some m) ∧
    ∀ text', List.Forall₂ LowerAlike text.toList text'.toList →
      (Literal.text text').matchAt source start = (Literal.text text).matchAt source start := by
  refine ⟨fun m => matchAt_lowered_iff, fun m hm => ?_, fun m => matchAt_exact_iff,
    fun m hm => ?_, fun text' h => (matchAt_text_congr h).symm⟩
  · obtain ⟨-, taken, hholds, -, rfl⟩ := matchAt_lowered_iff.1 hm
    have hnothing : source.Holds start "" := by
      obtain ⟨before, after, htext, rfl⟩ := hholds
      exact ⟨before, taken ++ after, by simp [htext, String.append_assoc], rfl⟩
    obtain ⟨after, hrest⟩ := Source.holds_iff.1 hholds
    refine ⟨by simpa using hnothing.isValid_stop, hholds.isValid_stop, ?_⟩
    refine Source.slice_eq_some_iff.2 ⟨after, ?_, ?_⟩
    · simpa [leafOf, Match.value, Node.valueOfAll, Node.value] using hrest
    · simp [leafOf, Match.value, Node.valueOfAll, Node.value, byteLength_toList]
  · obtain ⟨hstart, hholds, rfl⟩ := matchAt_exact_iff.1 hm
    exact matchAt_lowered_iff.2
      ⟨hstart, text, hholds, forall₂_lowerAlike_iff.2 rfl, rfl⟩

/-- The sign for degrees Kelvin is a k of three bytes. -/
example : (Literal.text "k").matchAt (.ofString "a\u212A") 1 =
    some ⟨[.literal "\u212A" 1], 4⟩ := by
  decide +kernel

end Literal

end Metasyntax
