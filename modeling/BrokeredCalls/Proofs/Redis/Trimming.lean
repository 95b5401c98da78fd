import Mathlib.Data.List.Forall2
import BrokeredCalls.Proofs.Redis.Streams

/-!
What a bound leaves of a queue, on a server and in the memory store. Both keep the newest entries, as
many as the bound says; but the memory store keeps one at least, and a server that is told to keep none
keeps none, so an entry added under the bound 0 is gone when its id is returned.
-/

namespace BrokeredCalls.Redis

open Hub (Does)
open List (Forall₂)
open Program (Runs)

section Newest

variable {α β : Type}

theorem rtake_rtake (m n : Nat) (l : List α) : (l.rtake n).rtake m = l.rtake (min m n) := by
  simp only [List.rtake_eq_reverse_take_reverse, List.reverse_reverse, List.take_take]

theorem rtake_newest (k : Nat) (bound : Option Nat) (l : List α) :
    (newest bound l).rtake k = newest bound (l.rtake k) := by
  cases bound with
  | none => rfl
  | some n => rw [newest, newest, rtake_rtake, rtake_rtake, Nat.min_comm]

theorem forall₂_newest {R : α → β → Prop} {l : List α} {l' : List β} (h : Forall₂ R l l')
    (bound : Option Nat) : Forall₂ R (newest bound l) (newest bound l') := by
  cases bound with
  | none => exact h
  | some n =>
    rw [newest, newest, List.rtake, List.rtake, h.length_eq]
    exact List.forall₂_drop _ h

theorem newest_concat {bound : Option Nat} (h : bound ≠ some 0) (l : List α) (a : α) :
    ∃ kept, newest bound (l ++ [a]) = kept ++ [a] := by
  cases bound with
  | none => exact ⟨l, rfl⟩
  | some n =>
    obtain ⟨m, rfl⟩ := Nat.exists_eq_succ_of_ne_zero fun zero => h (congrArg some zero)
    exact ⟨l.rtake m, List.rtake_concat_succ l m a⟩

end Newest

structure Stores where
  streams : Streams
  hub : Hub

namespace Stores

def rows (w : Stores) (q : String) : List Row := ((w.streams q).getD .empty).rows

def entries (w : Stores) (q : String) : List Hub.Entry := (w.hub.queueAt q).entries

end Stores

/-- The row is read as the entry is, whatever its id. -/
def Holds (q : String) (r : Row) (e : Hub.Entry) : Prop :=
  ∀ id, Entry.delivery q id (collected r.2) = ⟨q, id, e.envelope.withEntryId id⟩

def Alike (q : String) (w : Stores) : Prop := Forall₂ (Holds q) (w.rows q) (w.entries q)

structure Adds (q : String) (a : Addition) (id : String) (w w' : Stores) : Prop where
  server : ∃ s s', Runs Executing ((a.serve q).run s) w.streams (.ok id, s') w'.streams
  store : ∃ now i, Does w.hub now (a.deed q i).1 (a.deed q i).2 w'.hub

inductive Grown (q : String) (w₀ : Stores) : List Addition → Stores → Prop
  | start : Grown q w₀ [] w₀
  | add {as : List Addition} {w w' : Stores} {a : Addition} {id : String} (earlier : Grown q w₀ as w)
    (adds : Adds q a id w w') : Grown q w₀ (a :: as) w'

def entryOf (q : String) (a : Addition) (i : EntryId) : Hub.Entry :=
  ⟨i, (a.envelope q).stored q⟩

variable {q id : String} {a : Addition} {as : List Addition} {w₀ w w' : Stores}

theorem entries_of_addition {h h' : Hub} {now : Moment}
    (hd : Does h now (a.deed q id).1 (a.deed q id).2 h') :
    ∃ i, (h'.queueAt q).entries =
      newest (a.maxLength.map (max · 1)) ((h.queueAt q).entries ++ [entryOf q a i]) := by
  have after (n : Option Nat) (hafter : (h.append now q (a.envelope q) n).2 = h') :
      ∃ i, (h'.queueAt q).entries = newest n ((h.queueAt q).entries ++ [entryOf q a i]) := by
    refine ⟨(h.append now q (a.envelope q) n).1, ?_⟩
    rw [← hafter, Hub.queueAt, Hub.find?_append]
    cases n <;> rfl
  cases a with
  | entry e maxLength =>
    rcases hd.cases with ⟨deadline, hs⟩ | ⟨_, -, heq, -⟩
    · exact after (some (max maxLength 1)) (Prod.mk.inj (Option.some.inj hs)).2
    · cases heq
  | placeholder =>
    rcases hd.cases with ⟨deadline, hs⟩ | ⟨_, -, heq, -⟩
    · exact after none (Prod.mk.inj (Option.some.inj hs)).2
    · cases heq

namespace Adds

theorem rows (adds : Adds q a id w w') :
    w'.rows q = newest a.maxLength (w.rows q ++ [(id, a.fields)]) := by
  obtain ⟨s, s', run⟩ := adds.server
  cases closed : s.closed with
  | true => cases addition_closed closed run
  | false =>
    obtain ⟨_, heq, -, after⟩ := (addition_runs closed).mp run
    cases heq
    rw [Stores.rows, after, Streams.put_same]
    rfl

theorem entries (adds : Adds q a id w w') : ∃ i,
    w'.entries q = newest (a.maxLength.map (max · 1)) (w.entries q ++ [entryOf q a i]) := by
  obtain ⟨now, _, does⟩ := adds.store
  exact entries_of_addition does

end Adds

theorem holds_addition (q id : String) (a : Addition) (i : EntryId) :
    Holds q (id, a.fields) (entryOf q a i) := by
  intro id'
  rw [collected_of_nodup (nodup_addition a), delivery_addition]
  rfl

theorem bound_of_ne_zero {bound : Option Nat} (h : bound ≠ some 0) :
    bound.map (max · 1) = bound := by
  cases bound with
  | none => rfl
  | some n =>
    have pos : 1 ≤ n := Nat.one_le_iff_ne_zero.mpr fun zero => h (congrArg some zero)
    rw [Option.map_some, Nat.max_eq_left pos]

/-- The entries that came after the last addition with the bound 0. -/
def sinceEmptied (as : List Addition) (es : List Hub.Entry) : List Hub.Entry :=
  match as.findIdx? fun a => a.maxLength = some 0 with
  | some k => es.rtake k
  | none => es

theorem sinceEmptied_cons {bound : Option Nat} (same : a.maxLength = bound) (kept : bound ≠ some 0)
    (es : List Hub.Entry) (e : Hub.Entry) :
    sinceEmptied (a :: as) (newest bound (es ++ [e])) = newest bound (sinceEmptied as es ++ [e]) := by
  unfold sinceEmptied
  rw [List.findIdx?_cons, same, decide_eq_false kept]
  cases as.findIdx? fun a => a.maxLength = some 0 with
  | none => rfl
  | some k =>
    show (newest bound (es ++ [e])).rtake (k + 1) = newest bound (es.rtake k ++ [e])
    rw [rtake_newest, List.rtake_concat_succ]

theorem Adds.shared (adds : Adds q a id w w')
    (before : Forall₂ (Holds q) (w.rows q) (sinceEmptied as (w.entries q))) :
    Forall₂ (Holds q) (w'.rows q) (sinceEmptied (a :: as) (w'.entries q)) := by
  obtain ⟨i, entries⟩ := adds.entries
  rw [adds.rows, entries]
  by_cases kept : a.maxLength = some 0
  · rw [kept, newest, List.rtake_zero, sinceEmptied, List.findIdx?_cons, kept, decide_eq_true rfl]
    simp
  · rw [bound_of_ne_zero kept, sinceEmptied_cons rfl kept]
    exact forall₂_newest (List.rel_append before (.cons (holds_addition q id a i) .nil)) _

theorem Grown.shared (grown : Grown q w₀ as w) (alike : Alike q w₀) :
    Forall₂ (Holds q) (w.rows q) (sinceEmptied as (w.entries q)) := by
  induction grown with
  | start => exact alike
  | add _ adds ih => exact adds.shared ih

theorem Adds.alike_iff (adds : Adds q a id w w') (alike : Alike q w) :
    Alike q w' ↔ a.maxLength ≠ some 0 := by
  constructor
  · intro after zero
    obtain ⟨i, entries⟩ := adds.entries
    have one := after.length_eq
    rw [adds.rows, entries, zero, newest, List.rtake_zero] at one
    simp [newest, List.rtake] at one
  · intro kept
    have before : Forall₂ (Holds q) (w.rows q) (sinceEmptied [] (w.entries q)) := alike
    have shared := adds.shared before
    rwa [sinceEmptied, List.findIdx?_cons, decide_eq_false kept] at shared

theorem Adds.appended_iff (adds : Adds q a id w w') :
    (id, a.fields) ∈ w'.rows q ↔ a.maxLength ≠ some 0 := by
  rw [adds.rows]
  constructor
  · intro mem zero
    rw [zero, newest, List.rtake_zero] at mem
    cases mem
  · intro kept
    obtain ⟨before, last⟩ := newest_concat kept (w.rows q) (id, a.fields)
    rw [last]
    exact List.mem_concat_self

theorem Adds.remembered (adds : Adds q a id w w') : ∃ i, entryOf q a i ∈ w'.entries q := by
  obtain ⟨i, entries⟩ := adds.entries
  have kept : a.maxLength.map (max · 1) ≠ some 0 := by
    cases a.maxLength with
    | none => exact nofun
    | some n =>
      intro zero
      have none : max n 1 = 0 := Option.some.inj zero
      omega
  obtain ⟨before, last⟩ := newest_concat kept (w.entries q) (entryOf q a i)
  exact ⟨i, by rw [entries, last]; exact List.mem_concat_self⟩

def Stores.after (w : Stores) (q : String) (a : Addition) (id : String) (now : Moment) : Stores where
  streams := w.streams.put q (((w.streams q).getD .empty).add (id, a.fields) a.maxLength)
  hub := (w.hub.append now q (a.envelope q) (a.maxLength.map (max · 1))).2

theorem adds_after (q : String) (a : Addition) (id : String) (w : Stores) (now : Moment) :
    Adds q a id w (w.after q a id now) := by
  refine ⟨⟨.new "" 0, _, (addition_runs rfl).mpr ⟨id, rfl, rfl, rfl⟩⟩, now, ?_⟩
  cases a with
  | entry e maxLength =>
    have served : w.hub.serve now 0 (.append q e maxLength) = some _ := rfl
    exact ⟨_, Hub.does_of_serve served⟩
  | placeholder =>
    have served : w.hub.serve now 0 (.appendPlaceholder q) = some _ := rfl
    exact ⟨_, Hub.does_of_serve served⟩

structure Trimming (q : String) (as : List Addition) (w : Stores) : Prop where
  sent : ∀ e n s, s.closed = false → ∃ what,
    (Session.serve (.append q e n)).run s = .ask (I := Wire.interface)
      (.exchange s.shared [.addEntry q (some n) (Entry.fields e)] commandTimeout) (fun o =>
        .done (Session.judge s.name what Reading.text o, s)) ∧
      ∃ fields, (Command.addEntry q (some n) (Entry.fields e)).args =
        Command.words ["XADD", q, "MAXLEN", toString n, "*"] ++ fields
  shared : Forall₂ (Holds q) (w.rows q) (sinceEmptied as (w.entries q))
  alike : (∀ a ∈ as, a.maxLength ≠ some 0) → Alike q w
  possible : ∀ a id, ∃ w', Adds q a id w w'
  next : ∀ a id w', Adds q a id w w' →
    (Alike q w → (Alike q w' ↔ a.maxLength ≠ some 0)) ∧
      ((id, a.fields) ∈ w'.rows q ↔ a.maxLength ≠ some 0) ∧ ∃ i, entryOf q a i ∈ w'.entries q

/-- The same additions to a queue, under whatever bounds, leave the same entries on a server as in the
memory store but for those before the last bound of 0, which leaves none. -/
theorem additions_trimmed (alike : Alike q w₀) (grown : Grown q w₀ as w) : Trimming q as w where
  sent e n s isOpen := by
    obtain ⟨what, sends⟩ := serve_addition isOpen q (.entry e n)
    exact ⟨what, sends, _, rfl⟩
  shared := grown.shared alike
  alike bounds := by
    have shared := grown.shared alike
    rwa [sinceEmptied, List.findIdx?_eq_none_iff.mpr (by simpa using bounds)] at shared
  possible a id := ⟨_, adds_after q a id w ⟨⟨0⟩, 0⟩⟩
  next _ _ _ adds := ⟨adds.alike_iff, adds.appended_iff, adds.remembered⟩

def nowhere : Stores := ⟨fun _ => none, .empty⟩

theorem alike_nowhere (q : String) : Alike q nowhere := .nil

/-- A placeholder, then a call under the bound 0, then one that leaves room. -/
def emptied : Stores :=
  ((nowhere.after "s" .placeholder "1-0" ⟨⟨0⟩, 0⟩).after
    "s" (.entry (.immediate "s" [1]) 0) "2-0" ⟨⟨0⟩, 1⟩).after
      "s" (.entry (.immediate "s" [2]) 5) "3-0" ⟨⟨0⟩, 2⟩

theorem additions_trimmed_emptied :
    Alike "s" nowhere ∧
      Grown "s" nowhere
        [.entry (.immediate "s" [2]) 5, .entry (.immediate "s" [1]) 0, .placeholder] emptied ∧
      Trimming "s" [.entry (.immediate "s" [2]) 5, .entry (.immediate "s" [1]) 0, .placeholder] emptied ∧
      (emptied.rows "s").map (·.1) = ["3-0"] ∧
      (emptied.entries "s").map (·.envelope.payload) = [[1], [2]] := by
  have grown : Grown "s" nowhere
      [.entry (.immediate "s" [2]) 5, .entry (.immediate "s" [1]) 0, .placeholder] emptied :=
    .add (.add (.add .start (adds_after ..)) (adds_after ..)) (adds_after ..)
  have trimmed := additions_trimmed (alike_nowhere "s") grown
  exact ⟨alike_nowhere "s", grown, trimmed, by decide +kernel, by decide +kernel⟩

/-- Under the bound 0 the server loses what it has just taken in. -/
theorem not_always_alike : ¬ ∀ q e n id w w', Alike q w → Adds q (.entry e n) id w w' →
    Alike q w' ∧ (id, Entry.fields e) ∈ w'.rows q := by
  intro always
  have adds := adds_after "s" (.entry (.immediate "s" [1]) 0) "1-0" nowhere ⟨⟨0⟩, 0⟩
  obtain ⟨-, mem⟩ := always _ _ _ _ _ _ (alike_nowhere "s") adds
  exact adds.appended_iff.mp mem rfl

end BrokeredCalls.Redis
