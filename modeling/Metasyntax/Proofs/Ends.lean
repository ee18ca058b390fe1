import Mathlib.Data.Set.Basic
import Metasyntax.Proofs.Places

/-!
# What a grammar means

The ends of a parser are said without saying how they are found: a choice has the
ends of its branches, a sequence composes its parts, a repetition composes its
element with itself as often as its bounds allow. What rules mean is said in terms
of one another; a meaning is a tree that goes on through every rule that is asked
for and so has an end. It is unique where there is one.
-/

set_option autoImplicit false

namespace Metasyntax

def reach (step : Nat → Set Nat) : Nat → Set Nat → Set Nat
  | 0, initial => initial
  | count + 1, initial => reach step count {e | ∃ o ∈ initial, e ∈ step o}

namespace Parser

section
variable (firstMatch : ModeId → Bool) (meaning : RuleRef → Nat → Set Nat) (source : Source)

mutual
def ends : Parser → Nat → Set Nat
  | .literal terminal, start => {e | ∃ m, terminal.matchAt source start = some m ∧ m.stop = e}
  | .alternation mode branches, start =>
    if firstMatch mode then firstEnds branches start else anyEnds branches start
  | .concatenation parts, start => composedEnds parts start
  | .optional _ element, start =>
    {e | ∃ count ≤ 1, e ∈ reach (fun o => ends element o) count {start}}
  | .repetition _ bounds element, start =>
    {e | ∃ count, bounds.min ≤ count ∧ (∀ most, bounds.max = some most → count ≤ most) ∧
      e ∈ reach (fun o => ends element o) count {start}}
  | .rule ref, start => meaning ref start
  | .prose _, _ => ∅

def anyEnds : List Parser → Nat → Set Nat
  | [], _ => ∅
  | branch :: rest, start => ends branch start ∪ anyEnds rest start

def firstEnds : List Parser → Nat → Set Nat
  | [], _ => ∅
  | branch :: rest, start =>
    {e | e ∈ ends branch start ∨ ends branch start = ∅ ∧ e ∈ firstEnds rest start}

def composedEnds : List Parser → Nat → Set Nat
  | [], start => {start}
  | part :: rest, start => {e | ∃ o ∈ ends part start, e ∈ composedEnds rest o}
end

mutual
def Asks : Parser → Nat → RuleRef → Nat → Prop
  | .literal _, _, _, _ => False
  | .alternation mode branches, start, ref, o =>
    if firstMatch mode then FirstAsks branches start ref o else AnyAsks branches start ref o
  | .concatenation parts, start, ref, o => ComposedAsks parts start ref o
  | .optional _ element, start, ref, o => Asks element start ref o
  | .repetition _ bounds element, start, ref, o =>
    ∃ count, (∀ most, bounds.max = some most → count < most) ∧
      ∃ o' ∈ reach (fun o => ends firstMatch meaning source element o) count {start},
        Asks element o' ref o
  | .rule ref', start, ref, o => ref = ref' ∧ o = start
  | .prose _, _, _, _ => False

def AnyAsks : List Parser → Nat → RuleRef → Nat → Prop
  | [], _, _, _ => False
  | branch :: rest, start, ref, o => Asks branch start ref o ∨ AnyAsks rest start ref o

def FirstAsks : List Parser → Nat → RuleRef → Nat → Prop
  | [], _, _, _ => False
  | branch :: rest, start, ref, o =>
    Asks branch start ref o ∨
      ends firstMatch meaning source branch start = ∅ ∧ FirstAsks rest start ref o

def ComposedAsks : List Parser → Nat → RuleRef → Nat → Prop
  | [], _, _, _ => False
  | part :: rest, start, ref, o =>
    Asks part start ref o ∨
      ∃ o' ∈ ends firstMatch meaning source part start, ComposedAsks rest o' ref o
end

end

end Parser

namespace Catalog

/-- What a rule means at an offset: the ends of its definition, less those up to which the
text is, in its entirety, a match of the rule that it excludes. -/
inductive Means (catalog : Catalog) : Source → RuleRef → Nat → Set Nat → Prop
  | unrestricted {source : Source} {ref : RuleRef} {start : Nat} {rule : RuleId} {slot : Slot}
      {definition : Parser} (meaning : RuleRef → Nat → Set Nat) :
      catalog.resolve ref = .ok rule → catalog.bound rule = .ok (slot, definition) →
      slot.exclusion = none →
      (∀ ref' o, definition.Asks catalog.firstMatch meaning source start ref' o →
        Means catalog source ref' o (meaning ref' o)) →
      Means catalog source ref start (definition.ends catalog.firstMatch meaning source start)
  | restricted {source : Source} {ref : RuleRef} {start : Nat} {rule excluded : RuleId} {slot : Slot}
      {definition : Parser} {exclusion : RuleRef} (meaning : RuleRef → Nat → Set Nat)
      (vetoed : Nat → Set Nat) :
      catalog.resolve ref = .ok rule → catalog.bound rule = .ok (slot, definition) →
      slot.exclusion = some exclusion → catalog.resolve exclusion = .ok excluded →
      (∀ ref' o, definition.Asks catalog.firstMatch meaning source start ref' o →
        Means catalog source ref' o (meaning ref' o)) →
      (∀ e ∈ definition.ends catalog.firstMatch meaning source start,
        Means catalog (.ofString ((source.slice start e).getD "")) (catalog.refer excluded) 0
          (vetoed e)) →
      Means catalog source ref start
        {e | e ∈ definition.ends catalog.firstMatch meaning source start ∧
          (Source.ofString ((source.slice start e).getD "")).size ∉ vetoed e}

/-- What a parser means at an offset. -/
def Denotes (catalog : Catalog) (source : Source) (parser : Parser) (start : Nat)
    (ends : Set Nat) : Prop :=
  ∃ meaning : RuleRef → Nat → Set Nat,
    (∀ ref o, parser.Asks catalog.firstMatch meaning source start ref o →
      catalog.Means source ref o (meaning ref o)) ∧
    ends = parser.ends catalog.firstMatch meaning source start

end Catalog

theorem mem_reach_iff {step : Nat → Set Nat} {count : Nat} {initial : Set Nat} {e : Nat} :
    e ∈ reach step count initial ↔ ∃ o ∈ initial, e ∈ reach step count {o} := by
  induction count generalizing initial e with
  | zero => simp [reach]
  | succ count ih =>
    rw [reach, ih]
    constructor
    · rintro ⟨o, ⟨o', ho', ho⟩, he⟩
      exact ⟨o', ho', ih.2 ⟨o, ⟨o', rfl, ho⟩, he⟩⟩
    · rintro ⟨o', ho', he⟩
      rw [reach] at he
      obtain ⟨o, ⟨_, rfl, ho⟩, hrest⟩ := ih.1 he
      exact ⟨o, ⟨_, ho', ho⟩, hrest⟩

theorem reach_add {step : Nat → Set Nat} (i j : Nat) (initial : Set Nat) :
    reach step (i + j) initial = reach step j (reach step i initial) := by
  induction i generalizing initial with
  | zero => rw [Nat.zero_add, reach]
  | succ i ih => rw [Nat.succ_add, reach, ih, reach]

theorem reach_succ {step : Nat → Set Nat} (count : Nat) (initial : Set Nat) :
    reach step (count + 1) initial = {e | ∃ o ∈ reach step count initial, e ∈ step o} := by
  rw [reach_add, reach, reach]

structure Stepping (source : Source) (related : Nat → Nat → Prop) : Prop where
  refl (o : Nat) : related o o
  trans {a b c : Nat} : related a b → related b c → related a c
  matchAt {terminal : Literal} {start : Nat} {m : Match} :
    terminal.matchAt source start = some m → related start m.stop

def Onward (source : Source) (start e : Nat) : Prop := e = start ∨ start < e ∧ e ≤ source.size

theorem onward_stepping (source : Source) : Stepping source (Onward source) where
  refl _ := Or.inl rfl
  trans h h' := by
    unfold Onward at *
    omega
  matchAt h := by
    obtain ⟨taken, after, hrest, -, rfl⟩ := Literal.matchAt_eq_some_iff.1 h
    have hsize := Source.add_byteLength_rest hrest
    rw [byteLength_append] at hsize
    unfold Onward
    dsimp only
    omega

theorem near_stepping (source : Source) : Stepping source fun a b => Near source a source b where
  refl _ := Near.refl ..
  trans h h' := h.trans h'
  matchAt h := near_matchAt h

section
variable {source : Source} {related : Nat → Nat → Prop}

theorem related_of_mem_reach (hrelated : Stepping source related) {step : Nat → Set Nat}
    {count start : Nat} (h : ∀ k < count, ∀ o ∈ reach step k {start}, ∀ e ∈ step o, related o e) {e : Nat}
    (he : e ∈ reach step count {start}) : related start e := by
  induction count generalizing e with
  | zero => exact he ▸ hrelated.refl start
  | succ count ih =>
    rw [reach_succ] at he
    obtain ⟨o, ho, he⟩ := he
    exact hrelated.trans (ih (fun k hk => h k (by omega)) ho) (h count (by omega) o ho e he)

namespace Parser

variable {firstMatch : ModeId → Bool} {meaning : RuleRef → Nat → Set Nat}

mutual
theorem related_of_mem_ends (hrelated : Stepping source related) (parser : Parser) (start : Nat)
    (h : ∀ ref o, parser.Asks firstMatch meaning source start ref o →
      ∀ e ∈ meaning ref o, related o e) :
    ∀ e ∈ parser.ends firstMatch meaning source start, related start e := by
  intro e he
  cases parser with
  | literal terminal =>
    rw [ends] at he
    obtain ⟨m, hm, rfl⟩ := he
    exact hrelated.matchAt hm
  | alternation mode branches =>
    rw [ends] at he
    simp only [Asks] at h
    split at he
    case isTrue hmode =>
      simp only [hmode, if_true] at h
      exact related_of_mem_firstEnds hrelated branches start h e he
    case isFalse hmode =>
      simp only [hmode, Bool.false_eq_true, if_false] at h
      exact related_of_mem_anyEnds hrelated branches start h e he
  | concatenation parts =>
    rw [ends] at he
    exact related_of_mem_composedEnds hrelated parts start (by simpa only [Asks] using h) e he
  | optional cache element =>
    rw [ends] at he
    simp only [Asks] at h
    obtain ⟨count, hcount, he⟩ := he
    refine related_of_mem_reach hrelated (fun k hk o ho => ?_) he
    obtain rfl : k = 0 := by omega
    obtain rfl : o = start := ho
    exact related_of_mem_ends hrelated element o h
  | repetition cache bounds element =>
    rw [ends] at he
    simp only [Asks] at h
    obtain ⟨count, -, hcount, he⟩ := he
    refine related_of_mem_reach hrelated (fun k hk o ho => ?_) he
    exact related_of_mem_ends hrelated element o fun ref o' hasks =>
      h ref o' ⟨k, fun most hmost => hk.trans_le (hcount most hmost), o, ho, hasks⟩
  | rule ref =>
    rw [ends] at he
    exact h ref start (by simp [Asks]) e he
  | prose text =>
    rw [ends] at he
    exact absurd he (Set.notMem_empty e)

theorem related_of_mem_anyEnds (hrelated : Stepping source related) (branches : List Parser)
    (start : Nat) (h : ∀ ref o, AnyAsks firstMatch meaning source branches start ref o →
      ∀ e ∈ meaning ref o, related o e) :
    ∀ e ∈ anyEnds firstMatch meaning source branches start, related start e := by
  intro e he
  cases branches with
  | nil =>
    rw [anyEnds] at he
    exact absurd he (Set.notMem_empty e)
  | cons branch rest =>
    rw [anyEnds] at he
    simp only [AnyAsks] at h
    rcases he with he | he
    · exact related_of_mem_ends hrelated branch start (fun ref o hasks => h ref o (Or.inl hasks)) e he
    · exact related_of_mem_anyEnds hrelated rest start (fun ref o hasks => h ref o (Or.inr hasks)) e he

theorem related_of_mem_firstEnds (hrelated : Stepping source related) (branches : List Parser)
    (start : Nat) (h : ∀ ref o, FirstAsks firstMatch meaning source branches start ref o →
      ∀ e ∈ meaning ref o, related o e) :
    ∀ e ∈ firstEnds firstMatch meaning source branches start, related start e := by
  intro e he
  cases branches with
  | nil =>
    rw [firstEnds] at he
    exact absurd he (Set.notMem_empty e)
  | cons branch rest =>
    rw [firstEnds] at he
    simp only [FirstAsks] at h
    rcases he with he | ⟨hempty, he⟩
    · exact related_of_mem_ends hrelated branch start (fun ref o hasks => h ref o (Or.inl hasks)) e he
    · exact related_of_mem_firstEnds hrelated rest start
        (fun ref o hasks => h ref o (Or.inr ⟨hempty, hasks⟩)) e he

theorem related_of_mem_composedEnds (hrelated : Stepping source related) (parts : List Parser)
    (start : Nat) (h : ∀ ref o, ComposedAsks firstMatch meaning source parts start ref o →
      ∀ e ∈ meaning ref o, related o e) :
    ∀ e ∈ composedEnds firstMatch meaning source parts start, related start e := by
  intro e he
  cases parts with
  | nil =>
    rw [composedEnds] at he
    exact he ▸ hrelated.refl start
  | cons part rest =>
    rw [composedEnds] at he
    simp only [ComposedAsks] at h
    obtain ⟨o, ho, he⟩ := he
    have hpart := related_of_mem_ends hrelated part start (fun ref o hasks => h ref o (Or.inl hasks)) o ho
    have hrest := related_of_mem_composedEnds hrelated rest o
      (fun ref o' hasks => h ref o' (Or.inr ⟨o, ho, hasks⟩)) e he
    exact hrelated.trans hpart hrest
end

mutual
theorem related_of_asks (hrelated : Stepping source related) (parser : Parser) (start : Nat)
    (h : ∀ ref o, parser.Asks firstMatch meaning source start ref o →
      ∀ e ∈ meaning ref o, related o e) {ref : RuleRef} {o : Nat}
    (hasks : parser.Asks firstMatch meaning source start ref o) : related start o := by
  cases parser with
  | literal terminal | prose text => exact absurd hasks (by simp [Asks])
  | alternation mode branches =>
    rw [Asks] at hasks
    simp only [Asks] at h
    split at hasks
    case isTrue hmode =>
      simp only [hmode, if_true] at h
      exact related_of_firstAsks hrelated branches start h hasks
    case isFalse hmode =>
      simp only [hmode, Bool.false_eq_true, if_false] at h
      exact related_of_anyAsks hrelated branches start h hasks
  | concatenation parts =>
    rw [Asks] at hasks
    exact related_of_composedAsks hrelated parts start (by simpa only [Asks] using h) hasks
  | optional cache element =>
    rw [Asks] at hasks
    exact related_of_asks hrelated element start (by simpa only [Asks] using h) hasks
  | repetition cache bounds element =>
    rw [Asks] at hasks
    simp only [Asks] at h
    obtain ⟨count, hcount, o', ho', hasks⟩ := hasks
    refine hrelated.trans (related_of_mem_reach hrelated (fun k hk o ho => ?_) ho')
      (related_of_asks hrelated element o' (fun ref o'' hasks =>
        h ref o'' ⟨count, hcount, o', ho', hasks⟩) hasks)
    exact related_of_mem_ends hrelated element o fun ref o'' hasks =>
      h ref o'' ⟨k, fun most hmost => hk.trans (hcount most hmost), o, ho, hasks⟩
  | rule ref' =>
    rw [Asks] at hasks
    exact hasks.2 ▸ hrelated.refl start

theorem related_of_anyAsks (hrelated : Stepping source related) (branches : List Parser) (start : Nat)
    (h : ∀ ref o, AnyAsks firstMatch meaning source branches start ref o →
      ∀ e ∈ meaning ref o, related o e) {ref : RuleRef} {o : Nat}
    (hasks : AnyAsks firstMatch meaning source branches start ref o) : related start o := by
  cases branches with
  | nil => exact absurd hasks (by simp [AnyAsks])
  | cons branch rest =>
    rw [AnyAsks] at hasks
    simp only [AnyAsks] at h
    rcases hasks with hasks | hasks
    · exact related_of_asks hrelated branch start (fun ref o hasks => h ref o (Or.inl hasks)) hasks
    · exact related_of_anyAsks hrelated rest start (fun ref o hasks => h ref o (Or.inr hasks)) hasks

theorem related_of_firstAsks (hrelated : Stepping source related) (branches : List Parser) (start : Nat)
    (h : ∀ ref o, FirstAsks firstMatch meaning source branches start ref o →
      ∀ e ∈ meaning ref o, related o e) {ref : RuleRef} {o : Nat}
    (hasks : FirstAsks firstMatch meaning source branches start ref o) : related start o := by
  cases branches with
  | nil => exact absurd hasks (by simp [FirstAsks])
  | cons branch rest =>
    rw [FirstAsks] at hasks
    simp only [FirstAsks] at h
    rcases hasks with hasks | ⟨hempty, hasks⟩
    · exact related_of_asks hrelated branch start (fun ref o hasks => h ref o (Or.inl hasks)) hasks
    · exact related_of_firstAsks hrelated rest start
        (fun ref o hasks => h ref o (Or.inr ⟨hempty, hasks⟩)) hasks

theorem related_of_composedAsks (hrelated : Stepping source related) (parts : List Parser) (start : Nat)
    (h : ∀ ref o, ComposedAsks firstMatch meaning source parts start ref o →
      ∀ e ∈ meaning ref o, related o e) {ref : RuleRef} {o : Nat}
    (hasks : ComposedAsks firstMatch meaning source parts start ref o) : related start o := by
  cases parts with
  | nil => exact absurd hasks (by simp [ComposedAsks])
  | cons part rest =>
    rw [ComposedAsks] at hasks
    simp only [ComposedAsks] at h
    rcases hasks with hasks | ⟨o', ho', hasks⟩
    · exact related_of_asks hrelated part start (fun ref o hasks => h ref o (Or.inl hasks)) hasks
    · exact hrelated.trans
        (related_of_mem_ends hrelated part start (fun ref o hasks => h ref o (Or.inl hasks)) o' ho')
        (related_of_composedAsks hrelated rest o'
          (fun ref o hasks => h ref o (Or.inr ⟨o', ho', hasks⟩)) hasks)
end

end Parser

end

namespace Catalog

variable {catalog : Catalog}

theorem Means.related {related : Source → Nat → Nat → Prop}
    (hrelated : ∀ source, Stepping source (related source)) {source : Source} {ref : RuleRef}
    {start : Nat} {ends : Set Nat} (h : catalog.Means source ref start ends) :
    ∀ e ∈ ends, related source start e := by
  induction h with
  | unrestricted meaning _ _ _ _ ih => exact Parser.related_of_mem_ends (hrelated _) _ _ ih
  | restricted meaning vetoed _ _ _ _ _ _ ih =>
    exact fun e he => Parser.related_of_mem_ends (hrelated _) _ _ ih e he.1

end Catalog

end Metasyntax
