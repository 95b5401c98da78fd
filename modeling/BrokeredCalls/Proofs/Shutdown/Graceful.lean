import BrokeredCalls.Proofs.Shutdown.Calm
import BrokeredCalls.Proofs.Shutdown.Script

/-!
What a shutdown leaves behind. Whenever it was called, all that the node had taken by then was seen to the
end, nothing else was touched, and the loops ask for nothing any more.
-/

namespace BrokeredCalls.Shutdown

open Broker (Call)
open Network
open Node (Effect Loop Routine)

structure Happened (w : World) (newer : List Event) (e : Event) (older : List Event) (k : Nat)
    (t : Task) (x : Exchange Node.interface) : Prop where
  split : w.history = newer ++ e :: older
  doer : e.doer = some (k, x)
  task : w.tasks[k]? = some t

/-- Tasks that are not what a user asks for, and shutdowns. -/
def Task.Own (t : Task) : Prop := ∀ o, t.job = .operation o → o = .shutdown

/-- A field came to hold this, and holds it until someone changes it. -/
def Leaves (w : World) (i : StoreId) (newer : List Event) (key f : String) (v : Option Bytes) : Prop :=
  ∃ later e earlier, newer = later ++ e :: earlier ∧ (e.after i).field key f = v ∧
    ((∀ e' ∈ later, (e'.after i).field key f = (e'.before i).field key f) →
      (w.stores i).field key f = v)

/-- What comes of an entry once it was routed: a deferred call is in the hash of its service, one that was
cancelled is not, and any other call was begun. -/
structure Applied (s : Node.Shared) (storeOf : BrokerId → StoreId) (w : World) (newer : List Event)
    (b : BrokerId) (d : Delivery) : Prop where
  deferred : ∀ t, d.envelope.fireAt = some t →
    Leaves w (storeOf b) newer (Key.delay d.envelope.service) (Decimal.ofInt64 t)
      (if d.envelope.payload = [] then none else some d.envelope.payload)
  immediate : d.envelope.fireAt = none → d.envelope.payload ≠ [] → ∃ v ∈ w.tasks, v.job = .execution
    { broker := b
      service := d.envelope.service
      payload := d.envelope.payload
      replyKey := Key.reply d.envelope.service d.id
      replyTtl := s.config.replyTtl }

variable {node : Setup} {storeOf : BrokerId → StoreId} {w w₁ w' : World}

namespace Happened

variable {newer older : List Event} {e : Event} {k : Nat} {t : Task} {x : Exchange Node.interface}
  (happened : Happened w newer e older k t x)
include happened

theorem trail (recorded : w.Recorded storeOf) : t.trail = doings k newer ++ x :: doings k older := by
  rw [recorded.trails k t happened.task, happened.split, doings_append,
    doings_cons_self happened.doer]

theorem mem : e ∈ w.history := by
  rw [happened.split]
  exact List.mem_append_right _ List.mem_cons_self

theorem changed (recorded : w.Recorded storeOf) : Changed storeOf x e.before e.after :=
  recorded.changed e happened.mem k x happened.doer

theorem asked (reachable : Reachable node storeOf w) : Asked node.shared t.job (doings k older) x.1 :=
  (reachable.orderly.tasks t (List.mem_of_getElem? happened.task)).asked
    (happened.trail reachable.recorded)

end Happened

theorem Task.Own.inner {t : Task} (own : t.Own) {s : Node.Shared} {tr : Trail}
    {x : Exchange Node.interface} {b : BrokerId} {d : Hub.Deed} (asked : Asked s t.job tr x.1)
    (deals : Deals x b d) : ∀ o, t.job ≠ .operation o := by
  intro o is
  obtain rfl := own o is
  exact asked.not_shutdown deals is

namespace Reachable

variable (reachable : Reachable node storeOf w)
include reachable

theorem concluded (down : ShutDown w) : ∃ t ∈ w.tasks, t.job = .operation .shutdown ∧ Joined t.trail ∧
    ∀ source ∈ node.shared.sources, ∃ a,
      (⟨.broker source.broker .close, a⟩ : Exchange Node.interface) ∈ t.trail := by
  obtain ⟨t, mem, isShutdown, came⟩ := down
  have concluded := (reachable.orderly.tasks t mem).lives.obeys
  rw [came, isShutdown] at concluded
  exact ⟨t, mem, isShutdown, concluded.2⟩

variable {newer older : List Event} {e : Event} {k : Nat} {t : Task} {x : Exchange Node.interface}

theorem written (happened : Happened w newer e older k t x) {b : BrokerId} {d : Hub.Deed}
    {key f : String} {v : Option Bytes} (deals : Deals x b d) (write : d.write key f = some v) :
    (e.after (storeOf b)).field key f = v := by
  cases happened.changed reachable.recorded with
  | nothing idle => exact absurd deals (idle b d)
  | deed b' d' now deals' does =>
    obtain ⟨rfl, rfl⟩ := deals'.unique deals
    rw [Hub.field_of_does does, write, Option.getD_some]

theorem durable (happened : Happened w newer e older k t x) {b : BrokerId} {d : Hub.Deed}
    {key f : String} {v : Option Bytes} (deals : Deals x b d) (write : d.write key f = some v)
    (since : ∀ e' ∈ newer, (e'.after (storeOf b)).field key f = (e'.before (storeOf b)).field key f) :
    (w.stores (storeOf b)).field key f = v := by
  have leads := reachable.recorded.leads
  rw [happened.split] at leads
  exact (leads.field since).trans (reachable.written happened deals write)

theorem leaves (happened : Happened w newer e older k t x) {y : Exchange Node.interface}
    (done : y ∈ doings k newer) {b : BrokerId} {d : Hub.Deed} {key f : String} {v : Option Bytes}
    (deals : Deals y b d) (write : d.write key f = some v) :
    Leaves w (storeOf b) newer key f v := by
  obtain ⟨e', mem, doer⟩ := exists_event done
  obtain ⟨later, earlier, rfl⟩ := List.append_of_mem mem
  have again : Happened w later e' (earlier ++ e :: older) k t y :=
    ⟨by rw [happened.split, List.append_assoc, List.cons_append], doer, happened.task⟩
  refine ⟨later, e', earlier, rfl, ?_, reachable.durable again deals write⟩
  exact reachable.written again deals write

theorem applied (happened : Happened w newer e older k t x) {b : BrokerId} {ds : List Delivery}
    (handled : Handled node.shared b ds (doings k newer)) {d : Delivery} (mem : d ∈ ds) :
    Applied node.shared storeOf w newer b d := by
  obtain ⟨later, routes, routed, split⟩ := handled.routed
  obtain ⟨first, route, sub⟩ := routed.exists_route mem
  have done {y : Exchange Node.interface} (hy : y ∈ first) : y ∈ doings k newer := by
    rw [split]
    exact List.mem_append_right _ (List.mem_append_left _ (sub hy))
  constructor
  · intro t due
    cases route with
    | placeholder empty => simp [Envelope.isPlaceholder, due] at empty
    | deferred t' new due' call =>
      obtain rfl := Option.some.inj (due'.symm.trans due)
      rw [if_neg call]
      refine reachable.leaves happened (done (List.mem_cons_of_mem _ List.mem_cons_self))
        (.call _ _ _ (by simp)) ?_
      simp [Hub.Deed.write, Hub.Deed.change]
    | tombstone t' known due' empty =>
      obtain rfl := Option.some.inj (due'.symm.trans due)
      rw [if_pos empty]
      refine reachable.leaves happened (done List.mem_cons_self) (.call _ _ _ (by simp)) ?_
      simp [Hub.Deed.write, Hub.Deed.change]
    | immediate now => cases now.symm.trans due
  · intro now call
    cases route with
    | placeholder empty => simp [Envelope.isPlaceholder, now, call] at empty
    | deferred _ _ due => cases now.symm.trans due
    | tombstone _ _ due => cases now.symm.trans due
    | immediate =>
      refine reachable.executed (List.mem_of_getElem? happened.task) (u := ()) ?_
      rw [happened.trail reachable.recorded]
      exact List.mem_append_left _ (done List.mem_cons_self)

theorem unread (happened : Happened w newer e older k t x) (own : t.Own) {i : StoreId} {g q : String}
    {entry : Hub.Entry} (here : entry ∈ (e.before i).undelivered g q) :
    entry ∈ (e.after i).undelivered g q ∨ Hub.Passes g q entry (e.before i) (e.after i) := by
  have asked := happened.asked reachable
  cases happened.changed reachable.recorded with
  | nothing _ same => exact .inl (same ▸ here)
  | deed b d now deals does others =>
    by_cases other : i = storeOf b
    · subst other
      obtain ⟨c, v, rfl⟩ := deals.exists_call
      rcases asked.handles (own.inner asked deals) deals with ⟨g', _, _, _, _, rfl⟩ | handles
      · exact Hub.undelivered_or_passes does here
      · rcases does.cases with ⟨deadline, served⟩ | ⟨_, -, -, same⟩
        · exact .inl (((handles.keeps served).undelivered g q).subset here)
        · exact .inl (same ▸ here)
    · exact .inl (others i other ▸ here)

theorem unclaimed (happened : Happened w newer e older k t x) (own : t.Own) (i : StoreId)
    (key f : String) :
    (e.after i).field key f = (e.before i).field key f ∨ ∃ b, storeOf b = i ∧
      ((∃ d, Due (doings k older) d ∧
        x.1 = .broker b (.hashTake (Key.delay d.service) (Decimal.ofInt64 d.fireAt))) ∨
          ∃ d ∈ given (doings k older), duty node.shared b d = some x.1) := by
  have asked := happened.asked reachable
  cases happened.changed reachable.recorded with
  | nothing _ same => exact .inl (same ▸ rfl)
  | deed b d now deals does others =>
    by_cases other : i = storeOf b
    · subst other
      have field := Hub.field_of_does does key f
      cases write : Hub.Deed.write key f d with
      | none => exact .inl (by rw [field, write, Option.getD_none])
      | some v => exact .inr ⟨b, rfl, asked.write (own.inner asked deals) deals write⟩
    · exact .inl (by rw [others i other])

theorem silent (joined : ∃ t ∈ w.tasks, Joined t.trail) (finished : w.LoopsOver)
    (later : Later node storeOf w w') :
    ∀ (k : Nat) (t : Task), w'.tasks[k]? = some t → t.IsLoop → w.tasks[k]? = some t := by
  -- The induction carries that somebody waited: that alone keeps a later spawn from launching loops.
  have all : Reachable node storeOf w' ∧ (∃ t ∈ w'.tasks, Joined t.trail) ∧
      ∀ (k : Nat) (t : Task), w'.tasks[k]? = some t → t.IsLoop → w.tasks[k]? = some t := by
    induction later with
    | now => exact ⟨reachable, joined, fun k t ht _ => ht⟩
    | @step w₁ w' later step ih =>
      obtain ⟨reached, joined₁, same⟩ := ih
      have finished₁ : w₁.LoopsOver := by
        intro t mem isLoop
        obtain ⟨k, there⟩ := List.getElem?_of_mem mem
        exact finished t (List.mem_of_getElem? (same k t there isLoop)) isLoop
      obtain ⟨joined', loops⟩ := reached.orderly.loops_step joined₁ finished₁ step
      exact ⟨reached.step step, joined', fun k t ht isLoop => same k t (loops k t ht isLoop) isLoop⟩
  exact all.2.2

end Reachable

namespace Apart

variable (apart : Apart node storeOf w)
include apart

theorem settled {t : Task} (mem : t ∈ w.tasks) (isLoop : t.IsLoop) (ended : t.work = .done .nothing) :
    Settled node t.trail := by
  have settles := (apart.calm.settles t mem isLoop).obeys
  rw [ended] at settles
  exact settles.1

end Apart

def built : World := World.new ⟨⟨0⟩, 0⟩

/-- A dispatch loop has acknowledged a deferred call when a second shutdown comes back, while the first one
still waits for the loop. -/
def overtaken : World :=
  built.play (.echo "rpc") id <|
    .begin .spawn :: turns 0 12 ++
      .begin (.scheduleAt "s" ⟨5⟩ [8]) :: turns 3 2 ++ turns 2 4 ++
      .begin .shutdown :: turns 4 1 ++
      .begin .shutdown :: turns 5 1 ++ [.turn 5 (.overtake 4 5), .turn 5 .answer]

end BrokeredCalls.Shutdown
