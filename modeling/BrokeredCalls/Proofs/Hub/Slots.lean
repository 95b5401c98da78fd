import Mathlib.Data.List.Infix
import BrokeredCalls.Broker.Call

/-!
What a reply list should hold, told from what was pushed to it and popped from it alone. A frame waits
from its push until it is popped, or until the list it went to expires; each push decides anew when that
is. Histories hold the newest first.
-/

namespace BrokeredCalls.Slots

inductive Act where
  | push (value : Bytes) (ttl : Duration)
  | pop (value : Bytes)
  deriving DecidableEq

structure Deal where
  clock : Nat
  act : Act
  deriving DecidableEq

/-- A pushed value, with how many were pushed before it. -/
structure Frame where
  number : Nat
  value : Bytes
  deriving DecidableEq

def pushes : List Deal → List Frame
  | [] => []
  | ⟨_, .push value _⟩ :: ds => ⟨(pushes ds).length, value⟩ :: pushes ds
  | ⟨_, .pop _⟩ :: ds => pushes ds

/-- The instant at which the newest push lets the list expire. -/
def expiry : List Deal → Nat
  | [] => 0
  | ⟨clock, .push _ ttl⟩ :: _ => clock + ttl.nanos
  | ⟨_, .pop _⟩ :: ds => expiry ds

def frames : List Deal → List Frame
  | [] => []
  | ⟨clock, .push value _⟩ :: ds =>
    (if clock < expiry ds then frames ds else []) ++ [⟨(pushes ds).length, value⟩]
  | ⟨_, .pop _⟩ :: ds => (frames ds).tail

def taken : List Deal → List Frame
  | [] => []
  | ⟨_, .push _ _⟩ :: ds => taken ds
  | ⟨_, .pop _⟩ :: ds => (frames ds).head?.toList ++ taken ds

def waiting (ds : List Deal) (clock : Nat) : List Frame := if clock < expiry ds then frames ds else []

/-- No push after that of the frame came to an expired list. -/
def Unbroken (ds : List Deal) (f : Frame) : Prop := ∀ clock value ttl earlier,
  ⟨clock, .push value ttl⟩ :: earlier <:+ ds → f ∈ pushes earlier → clock < expiry earlier

/-- Pushed since the list was last empty or expired, and not yet popped. -/
structure Waits (ds : List Deal) (clock : Nat) (f : Frame) : Prop where
  pushed : f ∈ pushes ds
  untaken : f ∉ taken ds
  unbroken : Unbroken ds f
  live : clock < expiry ds

structure Oldest (ds : List Deal) (clock : Nat) (f : Frame) : Prop extends Waits ds clock f where
  first : ∀ g, Waits ds clock g → f.number ≤ g.number

variable {ds earlier : List Deal} {clock : Nat} {f g : Frame}

theorem number_lt (there : f ∈ pushes ds) : f.number < (pushes ds).length := by
  induction ds with
  | nil => cases there
  | cons d ds ih =>
    obtain ⟨_, ⟨value, ttl⟩ | value⟩ := d
    · rcases List.mem_cons.mp there with rfl | there
      · exact Nat.lt_succ_self _
      · exact Nat.lt_succ_of_lt (ih there)
    · exact ih there

theorem pushes_of_suffix (suffix : earlier <:+ ds) (there : f ∈ pushes earlier) : f ∈ pushes ds := by
  induction ds with
  | nil => rwa [← List.suffix_nil.mp suffix]
  | cons d ds ih =>
    rcases List.suffix_cons_iff.mp suffix with rfl | within
    · exact there
    · obtain ⟨_, ⟨value, ttl⟩ | value⟩ := d
      · exact List.mem_cons_of_mem _ (ih within)
      · exact ih within

theorem pushes_of_frames (there : f ∈ frames ds) : f ∈ pushes ds := by
  induction ds with
  | nil => cases there
  | cons d ds ih =>
    obtain ⟨clock, ⟨value, ttl⟩ | value⟩ := d
    · simp only [frames, List.mem_append, List.mem_singleton] at there
      rcases there with there | rfl
      · split at there
        · exact List.mem_cons_of_mem _ (ih there)
        · cases there
      · exact List.mem_cons_self
    · exact ih (List.mem_of_mem_tail there)

theorem pushes_of_taken (there : f ∈ taken ds) : f ∈ pushes ds := by
  induction ds with
  | nil => cases there
  | cons d ds ih =>
    obtain ⟨clock, ⟨value, ttl⟩ | value⟩ := d
    · exact List.mem_cons_of_mem _ (ih there)
    · show f ∈ pushes ds
      unfold taken at there
      rcases List.mem_append.mp there with head | there
      · exact pushes_of_frames (List.mem_of_mem_head? (Option.mem_toList.mp head))
      · exact ih there

theorem frames_ascending (ds : List Deal) : (frames ds).Pairwise fun f g => f.number < g.number := by
  induction ds with
  | nil => exact .nil
  | cons d ds ih =>
    obtain ⟨clock, ⟨value, ttl⟩ | value⟩ := d
    · unfold frames
      split
      · refine List.pairwise_append.mpr ⟨ih, List.pairwise_singleton _ _, fun f hf g hg => ?_⟩
        rw [List.mem_singleton.mp hg]
        exact number_lt (pushes_of_frames hf)
      · exact List.pairwise_singleton _ _
    · exact ih.tail

theorem taken_before (hf : f ∈ taken ds) (hg : g ∈ frames ds) : f.number < g.number := by
  induction ds with
  | nil => cases hf
  | cons d ds ih =>
    obtain ⟨clock, ⟨value, ttl⟩ | value⟩ := d
    · simp only [frames, List.mem_append, List.mem_singleton] at hg
      rcases hg with hg | rfl
      · split at hg
        · exact ih hf hg
        · cases hg
      · exact number_lt (pushes_of_taken hf)
    · have ascending := frames_ascending ds
      simp only [frames, taken] at hf hg
      cases hleft : frames ds with
      | nil => simp [hleft] at hg
      | cons head rest =>
        rw [hleft] at hf hg ascending
        rcases List.mem_append.mp hf with first | hf
        · rw [List.mem_singleton.mp first]
          exact List.rel_of_pairwise_cons ascending hg
        · exact ih hf (hleft ▸ List.mem_cons_of_mem _ hg)

theorem taken_descending (ds : List Deal) :
    (taken ds).Pairwise fun newer older => older.number < newer.number := by
  induction ds with
  | nil => exact .nil
  | cons d ds ih =>
    obtain ⟨clock, ⟨value, ttl⟩ | value⟩ := d
    · exact ih
    · unfold taken
      cases hleft : frames ds with
      | nil => exact ih
      | cons head rest =>
        refine List.pairwise_cons.mpr ⟨fun f hf => taken_before hf ?_, ih⟩
        rw [hleft]
        exact List.mem_cons_self

theorem unbroken_push {clock : Nat} {value : Bytes} {ttl : Duration} :
    Unbroken (⟨clock, .push value ttl⟩ :: ds) f ↔
      Unbroken ds f ∧ (f ∈ pushes ds → clock < expiry ds) := by
  constructor
  · intro unbroken
    exact ⟨fun _ _ _ _ suffix => unbroken _ _ _ _ (suffix.trans (List.suffix_cons _ _)),
      unbroken _ _ _ _ List.suffix_rfl⟩
  · rintro ⟨unbroken, last⟩ _ _ _ _ suffix there
    rcases List.suffix_cons_iff.mp suffix with heq | suffix
    · cases heq
      exact last there
    · exact unbroken _ _ _ _ suffix there

theorem unbroken_pop {clock : Nat} {value : Bytes} :
    Unbroken (⟨clock, .pop value⟩ :: ds) f ↔ Unbroken ds f := by
  constructor
  · exact fun unbroken _ _ _ _ suffix => unbroken _ _ _ _ (suffix.trans (List.suffix_cons _ _))
  · intro unbroken _ _ _ _ suffix
    rcases List.suffix_cons_iff.mp suffix with heq | suffix
    · cases heq
    · exact unbroken _ _ _ _ suffix

theorem mem_frames_iff : f ∈ frames ds ↔ f ∈ pushes ds ∧ f ∉ taken ds ∧ Unbroken ds f := by
  induction ds with
  | nil => simp [frames, pushes]
  | cons d ds ih =>
    obtain ⟨clock, ⟨value, ttl⟩ | value⟩ := d
    · rw [unbroken_push]
      show f ∈ (if clock < expiry ds then frames ds else []) ++ [⟨(pushes ds).length, value⟩] ↔
        f ∈ ⟨(pushes ds).length, value⟩ :: pushes ds ∧ f ∉ taken ds ∧ _
      rw [List.mem_append, List.mem_singleton, List.mem_cons]
      by_cases new : f = ⟨(pushes ds).length, value⟩
      · have fresh : f ∉ pushes ds := fun there => by
          have lt := number_lt there
          rw [new] at lt
          exact Nat.lt_irrefl _ lt
        have untaken : f ∉ taken ds := mt pushes_of_taken fresh
        have unbroken : Unbroken ds f := fun _ _ _ _ suffix there =>
          absurd (pushes_of_suffix ((List.suffix_cons _ _).trans suffix) there) fresh
        exact ⟨fun _ => ⟨.inl new, untaken, unbroken, fun there => absurd there fresh⟩,
          fun _ => .inr new⟩
      · by_cases live : clock < expiry ds
        · simp [live, new, ih]
        · simp only [live, if_false, List.not_mem_nil, new, or_self, false_or, false_iff]
          exact fun ⟨there, _, _, last⟩ => last there
    · rw [unbroken_pop]
      show f ∈ (frames ds).tail ↔ f ∈ pushes ds ∧ f ∉ (frames ds).head?.toList ++ taken ds ∧ _
      have ascending := frames_ascending ds
      cases hleft : frames ds with
      | nil =>
        rw [hleft] at ih
        simpa using ih
      | cons head rest =>
        rw [hleft] at ih ascending
        have apart : f ∈ rest → f ≠ head := fun there heq => by
          have lt := List.rel_of_pairwise_cons ascending there
          rw [heq] at lt
          exact Nat.lt_irrefl _ lt
        simp only [List.mem_cons] at ih
        simp only [List.tail_cons, List.head?_cons, Option.toList_some, List.singleton_append,
          List.mem_cons]
        tauto

theorem mem_waiting_iff : f ∈ waiting ds clock ↔ Waits ds clock f := by
  unfold waiting
  split
  · next live =>
    rw [mem_frames_iff]
    exact ⟨fun ⟨pushed, untaken, unbroken⟩ => ⟨pushed, untaken, unbroken, live⟩,
      fun waits => ⟨waits.pushed, waits.untaken, waits.unbroken⟩⟩
  · next gone => exact ⟨nofun, fun waits => absurd waits.live gone⟩

theorem waiting_nil_iff : waiting ds clock = [] ↔ ∀ f, ¬ Waits ds clock f := by
  rw [List.eq_nil_iff_forall_not_mem]
  exact forall_congr' fun f => not_congr mem_waiting_iff

theorem waiting_later {later : Nat} (none : waiting ds clock = []) (le : clock ≤ later) :
    waiting ds later = [] := by
  rw [waiting_nil_iff] at none ⊢
  exact fun f waits =>
    none f ⟨waits.pushed, waits.untaken, waits.unbroken, Nat.lt_of_le_of_lt le waits.live⟩

theorem frames_of_waiting {rest : List Frame} (there : waiting ds clock = f :: rest) :
    frames ds = f :: rest := by
  unfold waiting at there
  split at there
  · exact there
  · cases there

theorem waiting_ascending (ds : List Deal) (clock : Nat) :
    (waiting ds clock).Pairwise fun f g => f.number < g.number := by
  unfold waiting
  split
  · exact frames_ascending ds
  · exact .nil

theorem oldest_of_waiting {rest : List Frame} (there : waiting ds clock = f :: rest) :
    Oldest ds clock f where
  toWaits := by
    rw [← mem_waiting_iff, there]
    exact List.mem_cons_self
  first g waits := by
    have ascending := waiting_ascending ds clock
    rw [there] at ascending
    rw [← mem_waiting_iff, there] at waits
    rcases List.mem_cons.mp waits with rfl | later
    · exact Nat.le_refl _
    · exact Nat.le_of_lt (List.rel_of_pairwise_cons ascending later)

theorem lost {clock : Nat} {value : Bytes} {ttl : Duration}
    (suffix : ⟨clock, .push value ttl⟩ :: earlier <:+ ds) (expired : expiry earlier ≤ clock)
    (old : f ∈ pushes earlier) : (∀ now, ¬ Waits ds now f) ∧ (f ∈ taken ds → f ∈ taken earlier) := by
  have broken {ds : List Deal} (suffix : ⟨clock, .push value ttl⟩ :: earlier <:+ ds) :
      ¬ Unbroken ds f := fun unbroken => by
    have live := unbroken _ _ _ _ suffix old
    omega
  refine ⟨fun _ waits => broken suffix waits.unbroken, ?_⟩
  induction ds with
  | nil => cases List.suffix_nil.mp suffix
  | cons d ds ih =>
    intro there
    rcases List.suffix_cons_iff.mp suffix with heq | within
    · cases heq
      exact there
    · obtain ⟨_, ⟨value', ttl'⟩ | value'⟩ := d
      · exact ih within there
      · unfold taken at there
        rcases List.mem_append.mp there with head | there
        · have left := List.mem_of_mem_head? (Option.mem_toList.mp head)
          exact absurd (mem_frames_iff.mp left).2.2 (broken within)
        · exact ih within there

example : waiting [⟨9, .push [2] ⟨10⟩⟩, ⟨0, .push [1] ⟨10⟩⟩] 12 = [⟨0, [1]⟩, ⟨1, [2]⟩] := by decide

example : waiting [⟨10, .push [2] ⟨10⟩⟩, ⟨0, .push [1] ⟨10⟩⟩] 12 = [⟨1, [2]⟩] := by decide

end BrokeredCalls.Slots
