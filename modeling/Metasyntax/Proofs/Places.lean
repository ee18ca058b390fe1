import Mathlib.Tactic.NormNum
import Metasyntax.Proofs.Simulation

/-!
# Places in texts

A parse moves on in its text, or starts anew on a stretch of it. Either way it
stays where it is or comes to a place with less room, which bounds how deep it
can get.
-/

set_option autoImplicit false

namespace Metasyntax

theorem dropBytes_eq_some_iff {n : Nat} {cs rest : List Char} :
    dropBytes n cs = some rest ↔ ∃ taken, cs = taken ++ rest ∧ byteLength taken = n := by
  induction cs generalizing n with
  | nil =>
    rw [dropBytes]
    constructor
    · intro h
      split at h
      · cases h
        exact ⟨[], rfl, by simp_all [byteLength]⟩
      · cases h
    · rintro ⟨taken, h, rfl⟩
      obtain ⟨rfl, rfl⟩ := List.append_eq_nil_iff.1 h.symm
      rfl
  | cons c cs ih =>
    have hc := c.utf8Size_pos
    rw [dropBytes]
    constructor
    · intro h
      split at h
      case isTrue hn =>
        cases h
        exact ⟨[], rfl, hn.symm⟩
      case isFalse hn =>
        split at h
        case isTrue hle =>
          obtain ⟨taken, rfl, htaken⟩ := ih.1 h
          exact ⟨c :: taken, rfl, by rw [byteLength]; omega⟩
        case isFalse => cases h
    · rintro ⟨taken, h, rfl⟩
      cases taken with
      | nil => simp_all [byteLength]
      | cons d taken =>
        obtain ⟨rfl, rfl⟩ := List.cons_eq_cons.1 h
        rw [byteLength, if_neg (by omega), if_pos (by omega), Nat.add_sub_cancel_left]
        exact ih.2 ⟨taken, rfl, rfl⟩

theorem takeBytes_eq_some_iff {n : Nat} {cs taken : List Char} :
    takeBytes n cs = some taken ↔ ∃ rest, cs = taken ++ rest ∧ byteLength taken = n := by
  constructor
  · intro h
    induction cs generalizing n taken with
    | nil =>
      rw [takeBytes] at h
      split at h
      · cases h
        exact ⟨[], rfl, by simp_all [byteLength]⟩
      · cases h
    | cons c cs ih =>
      rw [takeBytes] at h
      split at h
      case isTrue hn =>
        cases h
        exact ⟨c :: cs, rfl, hn.symm⟩
      case isFalse =>
        split at h
        case isTrue hle =>
          obtain ⟨taken', h', rfl⟩ := Option.map_eq_some_iff.1 h
          obtain ⟨rest, rfl, hlen⟩ := ih h'
          exact ⟨rest, rfl, by rw [byteLength]; omega⟩
        case isFalse => cases h
  · rintro ⟨rest, rfl, rfl⟩
    exact takeBytes_append taken rest

theorem byteLength_eq_zero {cs : List Char} : byteLength cs = 0 ↔ cs = [] := by
  cases cs with
  | nil => simp [byteLength]
  | cons c cs =>
    have hc := c.utf8Size_pos
    simp only [byteLength, reduceCtorEq, iff_false]
    omega

namespace Source

@[simp] theorem text_ofString (text : String) : (ofString text).text = text := rfl

theorem rest_eq_some_iff {source : Source} {start : Nat} {rest : List Char} :
    source.rest start = some rest ↔
      ∃ before, source.text.toList = before ++ rest ∧ byteLength before = start := by
  rw [rest_eq, dropBytes_eq_some_iff]

@[simp] theorem rest_zero (source : Source) : source.rest 0 = some source.text.toList :=
  rest_eq_some_iff.2 ⟨[], rfl, rfl⟩

theorem rest_add {source : Source} {start : Nat} {taken after : List Char}
    (h : source.rest start = some (taken ++ after)) :
    source.rest (start + byteLength taken) = some after := by
  obtain ⟨before, htext, rfl⟩ := rest_eq_some_iff.1 h
  exact rest_eq_some_iff.2 ⟨before ++ taken, by simp [htext], byteLength_append _ _⟩

theorem add_byteLength_rest {source : Source} {start : Nat} {rest : List Char}
    (h : source.rest start = some rest) : start + byteLength rest = source.size := by
  obtain ⟨before, htext, rfl⟩ := rest_eq_some_iff.1 h
  rw [size_eq, htext, byteLength_append]

theorem slice_eq_some_iff {source : Source} {start stop : Nat} {text : String} :
    source.slice start stop = some text ↔
      ∃ after, source.rest start = some (text.toList ++ after) ∧
        stop = start + byteLength text.toList := by
  rw [slice]
  constructor
  · intro h
    split at h
    case isTrue hle =>
      obtain ⟨taken, htaken, rfl⟩ := Option.map_eq_some_iff.1 h
      obtain ⟨rest, hrest, htake⟩ := Option.bind_eq_some_iff.1 htaken
      obtain ⟨after, rfl, hlen⟩ := takeBytes_eq_some_iff.1 htake
      refine ⟨after, by simpa using hrest, ?_⟩
      simp only [String.toList_ofList]
      omega
    case isFalse => cases h
  · rintro ⟨after, hrest, rfl⟩
    rw [if_pos (Nat.le_add_right _ _), hrest, Nat.add_sub_cancel_left]
    simp [takeBytes_append]

def room (source : Source) (start : Nat) : Nat :=
  match source.rest start with
  | some rest => 2 * byteLength rest + if start = 0 then 0 else 1
  | none => 1

theorem room_of_rest {source : Source} {start : Nat} {rest : List Char}
    (h : source.rest start = some rest) :
    source.room start = 2 * byteLength rest + if start = 0 then 0 else 1 := by
  rw [room, h]

theorem room_le (source : Source) (start : Nat) : source.room start ≤ 2 * source.size + 1 := by
  cases h : source.rest start with
  | none => simp [room, h]
  | some rest =>
    have hsize := add_byteLength_rest h
    rw [room_of_rest h]
    split <;> omega

end Source

namespace Literal

theorem consumeText_prefix {same : Char → Char → Bool} {pattern rest taken : List Char}
    (h : consumeText same pattern rest = some taken) : ∃ after, rest = taken ++ after := by
  induction pattern generalizing rest taken with
  | nil =>
    cases h
    exact ⟨rest, rfl⟩
  | cons expected pattern ih =>
    cases rest with
    | nil => cases h
    | cons actual rest =>
      rw [consumeText] at h
      split at h
      · obtain ⟨taken', h', rfl⟩ := Option.map_eq_some_iff.1 h
        obtain ⟨after, rfl⟩ := ih h'
        exact ⟨after, rfl⟩
      · cases h

theorem consume_prefix {terminal : Literal} {rest taken : List Char}
    (h : terminal.consume rest = some taken) : ∃ after, rest = taken ++ after := by
  obtain ⟨pattern, caseSensitive⟩ := terminal
  cases rest with
  | nil => cases pattern <;> cases h
  | cons c rest =>
    cases pattern with
    | text text => exact consumeText_prefix h
    | range first last =>
      change (if first ≤ c ∧ c ≤ last then some [c] else none) = some taken at h
      split at h
      · cases h
        exact ⟨rest, rfl⟩
      · cases h

theorem consumeText_ne_nil {same : Char → Char → Bool} {pattern rest taken : List Char}
    (hpattern : pattern ≠ []) (h : consumeText same pattern rest = some taken) :
    taken ≠ [] := by
  obtain ⟨c, pattern, rfl⟩ := List.exists_cons_of_ne_nil hpattern
  cases rest with
  | nil => cases h
  | cons actual rest =>
    rw [consumeText] at h
    split at h
    · obtain ⟨taken', -, rfl⟩ := Option.map_eq_some_iff.1 h
      exact List.cons_ne_nil _ _
    · cases h

theorem consume_ne_nil {terminal : Literal} {rest taken : List Char}
    (hterminal : terminal.pattern ≠ .text "") (h : terminal.consume rest = some taken) :
    taken ≠ [] := by
  obtain ⟨pattern, caseSensitive⟩ := terminal
  cases rest with
  | nil => cases pattern <;> cases h
  | cons c rest =>
    cases pattern with
    | text text =>
      refine consumeText_ne_nil (fun hnil => hterminal ?_) h
      exact congrArg Pattern.text (String.toList_inj.1 hnil)
    | range first last =>
      change (if first ≤ c ∧ c ≤ last then some [c] else none) = some taken at h
      split at h
      · cases h
        exact List.cons_ne_nil _ _
      · cases h

theorem matchAt_eq_some_iff {terminal : Literal} {source : Source} {start : Nat} {m : Match} :
    terminal.matchAt source start = some m ↔
      ∃ taken after, source.rest start = some (taken ++ after) ∧
        terminal.consume (taken ++ after) = some taken ∧
        m = ⟨[.literal (String.ofList taken) start], start + byteLength taken⟩ := by
  simp only [matchAt, Option.bind_eq_bind, Option.bind_eq_some_iff, Option.pure_def,
    Option.some.injEq]
  constructor
  · rintro ⟨rest, hrest, taken, htaken, rfl⟩
    obtain ⟨after, rfl⟩ := consume_prefix htaken
    exact ⟨taken, after, hrest, htaken, rfl⟩
  · rintro ⟨taken, after, hrest, htaken, rfl⟩
    exact ⟨_, hrest, taken, htaken, rfl⟩

end Literal

def Near (source : Source) (start : Nat) (source' : Source) (start' : Nat) : Prop :=
  (source' = source ∧ start' = start) ∨ source'.room start' < source.room start

theorem Near.refl (source : Source) (start : Nat) : Near source start source start :=
  Or.inl ⟨rfl, rfl⟩

theorem Near.trans {s₁ s₂ s₃ : Source} {o₁ o₂ o₃ : Nat} (h : Near s₁ o₁ s₂ o₂)
    (h' : Near s₂ o₂ s₃ o₃) : Near s₁ o₁ s₃ o₃ := by
  rcases h with ⟨rfl, rfl⟩ | h
  · exact h'
  · rcases h' with ⟨rfl, rfl⟩ | h'
    · exact Or.inr h
    · exact Or.inr (Nat.lt_trans h' h)

theorem near_matchAt {terminal : Literal} {source : Source} {start : Nat} {m : Match}
    (h : terminal.matchAt source start = some m) : Near source start source m.stop := by
  obtain ⟨taken, after, hrest, -, rfl⟩ := Literal.matchAt_eq_some_iff.1 h
  by_cases htaken : taken = []
  · subst htaken
    exact Or.inl ⟨rfl, rfl⟩
  · have hpos : 0 < byteLength taken :=
      Nat.pos_of_ne_zero fun h => htaken (byteLength_eq_zero.1 h)
    refine Or.inr ?_
    rw [Source.room_of_rest hrest, Source.room_of_rest (Source.rest_add hrest), byteLength_append]
    split <;> split <;> omega

theorem near_slice (source : Source) (start stop : Nat) :
    Near source start (.ofString ((source.slice start stop).getD "")) 0 := by
  cases hslice : source.slice start stop with
  | none =>
    have hroom : (Source.ofString "").room 0 = 0 := by
      rw [Source.room_of_rest (Source.rest_zero _)]
      rfl
    by_cases hzero : source.room start = 0
    · cases hrest : source.rest start with
      | none => simp [Source.room, hrest] at hzero
      | some rest =>
        rw [Source.room_of_rest hrest] at hzero
        obtain rfl : start = 0 := by
          by_contra hne
          simp [hne] at hzero
        obtain rfl : rest = [] := byteLength_eq_zero.1 (by simpa using hzero)
        refine Or.inl ⟨Source.ext_text ?_, rfl⟩
        simpa using hrest.symm
    · exact Or.inr (by simp only [Option.getD_none, hroom]; omega)
  | some text =>
    obtain ⟨after, hrest, rfl⟩ := Source.slice_eq_some_iff.1 hslice
    simp only [Option.getD_some]
    by_cases hsame : after = [] ∧ start = 0
    · obtain ⟨rfl, rfl⟩ := hsame
      refine Or.inl ⟨Source.ext_text ?_, rfl⟩
      simpa [String.toList_inj] using hrest.symm
    · refine Or.inr ?_
      rw [Source.room_of_rest hrest, Source.room_of_rest (Source.rest_zero _), byteLength_append]
      have hafter : byteLength after = 0 ↔ after = [] := byteLength_eq_zero
      simp only [Source.text_ofString, if_true]
      split <;> grind

theorem near_settling (source : Source) (start : Nat) : Settling (Near source start) where
  consume _ _ _ _ hstart h := hstart.trans (near_matchAt h)
  slice _ _ _ hstart := hstart.trans (near_slice ..)

theorem settling_true : Settling fun _ _ => True :=
  ⟨fun _ _ _ _ _ _ => trivial, fun _ _ _ _ => trivial⟩

end Metasyntax
