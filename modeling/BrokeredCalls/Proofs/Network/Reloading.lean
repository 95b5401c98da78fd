import BrokeredCalls.Proofs.Network.Tracking
import BrokeredCalls.Proofs.Text.Decimal

/-!
A reload of a node while its loops run. It reads the hashes first and replaces the pending list later, so
it tracks what was durable when it read, and forgets what the loops began to track since then.
-/

namespace BrokeredCalls.Network

open Node (Effect Execution)
open Broker (Call)

variable {net : NodeId → Setup} {S S' : State} {u v : TaskId} {n : NodeId} {t : DelayedTask}
  {newer before older : List Event}

/-- A reload of a node has just replaced its pending list, and an add of the same node had ended. Since
the add made its task durable, nobody claimed or deleted it. -/
structure Overlap (S : State) (n : NodeId) (t : DelayedTask) (reload add : TaskId)
    (newer before : List Event) : Prop where
  reloading : S.has reload n (.operation .reload)
  adding : ∃ j, S.has add n j
  history : ∃ ts count b payload,
    S.history = .served reload (.pending (.replace ts)) count :: (newer ++
      .served add (.broker b (.hashSet (Key.delay t.service) (Decimal.ofInt64 t.fireAt) payload))
        (.ok ()) :: before)
  tracked : ∃ known, .served add (.pending (.insert t)) known ∈ newer
  kept : ∀ e ∈ newer, e.write (Key.delay t.service) (Decimal.ofInt64 t.fireAt) ≠ some none

def Unread (t : DelayedTask) (reload : TaskId) (H : List Event) : Prop :=
  ∀ b fields, .served reload (.broker b (.hashFields (Key.delay t.service))) (.ok fields) ∉ H

theorem Reachable.field_of_written (reach : Reachable net S) {key field : String} {b : BrokerId}
    {payload : Bytes}
    (history : S.history = newer ++ .served v (.broker b (.hashSet key field payload)) (.ok ()) :: older)
    (kept : ∀ e ∈ newer, e.write key field ≠ some none) : S.hub.field key field ≠ none := by
  rw [reach.field_eq_replay, history]
  clear history
  induction newer with
  | nil => simp [deeds, exchanges, deal, Hub.replay, Hub.Deed.write, Hub.Deed.change]
  | cons e newer ih =>
    have ih := ih fun e he => kept e (List.mem_cons_of_mem _ he)
    have here := kept e List.mem_cons_self
    cases e with
    | began => exact ih
    | served u r a =>
      show Hub.replay key field (deeds (.served u r a :: (newer ++ _))) ≠ none
      cases hd : deal ⟨r, a⟩ with
      | none => rwa [deeds_of_none hd]
      | some d =>
        rw [deeds_of_some hd, Hub.replay]
        cases hw : d.write key field with
        | none => exact ih
        | some value =>
          rintro rfl
          exact here (by simp [Event.write, hd, hw])

theorem Reachable.pending_of_replaced (reach : Reachable net S) {j : Job} (has : S.has u n j)
    {ts : List DelayedTask} {count : Nat}
    (history : S.history = .served u (.pending (.replace ts)) count :: older) :
    S.pending n = .ofList ts := by
  induction reach with
  | start now => cases history
  | @step S S' earlier step ih =>
    cases step with
    | pass now later => exact ih has history
    | again here => exact ih (State.has_setWork.mp has) history
    | begin m o => cases history
    | @serve w m k r next a h q here answers =>
      obtain ⟨heq, -⟩ := List.cons.inj history
      cases heq
      obtain ⟨rfl, -⟩ := has.unique (Step.has earlier.founded (.serve here answers) ⟨_, here⟩)
      obtain ⟨-, rfl⟩ := Prod.mk.inj answers.2
      simp [State.record, State.store]

theorem Reachable.amid (reach : Reachable net S) {r : Effect} {a : r.Answer}
    (history : S.history = newer ++ .served u r a :: older) :
    ∃ S₀ m j next h q, Reachable net S₀ ∧ S₀.history = older ∧
      S₀.tasks u = some ⟨m, j, .ask r next⟩ ∧ Answers net S₀ m r a h q ∧
        ∀ v i k, S₀.has v i k → S.has v i k := by
  have served : At S.history older.length (.served u r a) := history ▸ At.middle newer _
  have hpast : past S.history older.length = older := by
    rw [history, List.append_cons]
    exact past_append _ _
  exact hpast ▸ reach.before served

theorem Reachable.lawful (reach : Reachable net S) (dispatched : Dispatched S.history) {r : Effect}
    {a : r.Answer} {j : Job} (has : S.has u n j)
    (history : S.history = newer ++ .served u r a :: older) :
    Lawful (net n) (traceOf u older) r := by
  obtain ⟨S₀, m, i, next, h, q, reach₀, rfl, here, -, keeps⟩ := reach.amid history
  have dispatched₀ : Dispatched S₀.history := fun n o hm => dispatched n o <| by
    rw [history]
    exact List.mem_append_right _ (List.mem_cons_of_mem _ hm)
  obtain ⟨rfl, rfl⟩ := has.unique (keeps _ _ _ ⟨_, here⟩)
  exact ((reach₀.sound dispatched₀.direct).careful reach₀ here).lawful

theorem Reachable.kept_by_reload (reach : Reachable net S) (dispatched : Dispatched S.history)
    (overlap : Overlap S n t u v newer before) (unread : Unread t u before) : t ∈ S.pending n := by
  obtain ⟨ts, count, b, payload, history⟩ := overlap.history
  obtain ⟨j, adding⟩ := overlap.adding
  obtain ⟨known, tracked⟩ := overlap.tracked
  have attends : (net n).Attends t.service := by
    obtain ⟨later, earlier, rfl⟩ := List.append_of_mem tracked
    exact reach.lawful dispatched adding (r := .pending (.insert t))
      (by rw [history, List.append_assoc, List.cons_append, ← List.cons_append])
  have gathered : Gathered (net n).Attends _ ts :=
    reach.lawful dispatched overlap.reloading (history.trans (List.nil_append _).symm)
  obtain ⟨fields, b', hread⟩ := gathered.read t.service attends
  -- Not having read the hash before the task was durable, the reload read it later.
  have read : Event.served u (.broker b' (.hashFields (Key.delay t.service))) (.ok fields) ∈ newer := by
    rcases List.mem_append.mp (mem_traceOf.mp hread) with hm | hm
    · exact hm
    · rcases List.mem_cons.mp hm with heq | hm
      · cases heq
      · exact absurd hm (unread b' fields)
  have listed : Decimal.ofInt64 t.fireAt ∈ fields := by
    obtain ⟨later, earlier, rfl⟩ := List.append_of_mem read
    rw [List.append_assoc, List.cons_append, ← List.cons_append] at history
    obtain ⟨S₀, m, i, next, h, q, reach₀, history₀, -, answers, -⟩ := reach.amid history
    rw [Hub.fields_of_does answers.1, Hub.mem_hashFields, Option.isSome_iff_ne_none]
    exact reach₀.field_of_written history₀ fun e he =>
      overlap.kept e (List.mem_append_right _ (List.mem_cons_of_mem _ he))
  rw [reach.pending_of_replaced overlap.reloading history, TaskQueue.mem_ofList]
  refine gathered.all t.service fields ⟨b', hread⟩ t (List.mem_filterMap.mpr ⟨_, listed, ?_⟩)
  rw [Decimal.int64?_ofInt64]
  rfl

section Check

def replaced? (u : TaskId) : Event → Bool
  | .served v (.pending (.replace _)) _ => v = u
  | _ => false

def wrote? (u : TaskId) (t : DelayedTask) : Event → Bool
  | .served v (.broker _ (.hashSet key field _)) (.ok _) =>
    v = u && key = Key.delay t.service && field = Decimal.ofInt64 t.fireAt
  | _ => false

def tracked? (u : TaskId) (t : DelayedTask) : Event → Bool
  | .served v (.pending (.insert t')) _ => v = u && t' = t
  | _ => false

def read? (u : TaskId) (t : DelayedTask) : Event → Bool
  | .served v (.broker _ (.hashFields key)) (.ok _) => v = u && key = Key.delay t.service
  | _ => false

def overlap? (t : DelayedTask) (reload add : TaskId) (k : Nat) : List Event → Bool
  | [] => false
  | e :: H =>
    replaced? reload e && (H.drop k).head?.any (wrote? add t) && (H.take k).any (tracked? add t) &&
      (H.take k).all fun e => e.write (Key.delay t.service) (Decimal.ofInt64 t.fireAt) ≠ some none

theorem exists_of_replaced? {e : Event} (h : replaced? u e = true) :
    ∃ ts count, e = .served u (.pending (.replace ts)) count := by
  unfold replaced? at h
  split at h
  · next v ts count =>
    obtain rfl : v = u := by simpa using h
    exact ⟨ts, count, rfl⟩
  · cases h

theorem exists_of_wrote? {e : Event} (h : wrote? u t e = true) :
    ∃ b payload, e = .served u (.broker b
      (.hashSet (Key.delay t.service) (Decimal.ofInt64 t.fireAt) payload)) (.ok ()) := by
  unfold wrote? at h
  split at h
  · next v b key field payload a =>
    simp only [Bool.and_eq_true, decide_eq_true_eq] at h
    obtain ⟨⟨rfl, rfl⟩, rfl⟩ := h
    exact ⟨b, payload, rfl⟩
  · cases h

theorem exists_of_tracked? {e : Event} (h : tracked? u t e = true) :
    ∃ known, e = .served u (.pending (.insert t)) known := by
  unfold tracked? at h
  split at h
  · next v t' known =>
    simp only [Bool.and_eq_true, decide_eq_true_eq] at h
    obtain ⟨rfl, rfl⟩ := h
    exact ⟨known, rfl⟩
  · cases h

theorem Overlap.of_check {k : Nat} (reloading : S.has u n (.operation .reload)) {j : Job}
    (adding : S.has v n j) (h : overlap? t u v k S.history = true) :
    Overlap S n t u v (S.history.tail.take k) (S.history.tail.drop (k + 1)) := by
  cases hH : S.history with
  | nil =>
    rw [hH] at h
    cases h
  | cons e H =>
    rw [hH] at h
    simp only [overlap?, Bool.and_eq_true] at h
    obtain ⟨⟨⟨replaced, wrote⟩, tracked⟩, kept⟩ := h
    obtain ⟨ts, count, rfl⟩ := exists_of_replaced? replaced
    obtain ⟨w, hw, wrote⟩ := (Option.any_eq_true _ _).mp wrote
    obtain ⟨b, payload, rfl⟩ := exists_of_wrote? wrote
    obtain ⟨x, hx, tracked⟩ := List.any_eq_true.mp tracked
    obtain ⟨known, rfl⟩ := exists_of_tracked? tracked
    refine ⟨reloading, ⟨j, adding⟩, ⟨ts, count, b, payload, ?_⟩, ⟨known, hx⟩, fun e he => ?_⟩
    · obtain ⟨rest, hrest⟩ := List.head?_eq_some_iff.mp hw
      have heq : H.drop (k + 1) = rest := by rw [← List.tail_drop, hrest, List.tail_cons]
      rw [hH, List.tail_cons, heq, ← hrest, List.take_append_drop]
    · simpa using List.all_eq_true.mp kept e he

theorem Unread.of_check {H : List Event} (h : H.all (fun e => !read? u t e) = true) :
    Unread t u H := fun b fields hm => by simpa [read?] using List.all_eq_true.mp h _ hm

end Check

/-- A loop adds while a reload is at work, and makes the task durable before the reload reads its
hash. -/
def intime : State :=
  (State.start ⟨⟨0⟩, 0⟩).play (fun _ => .echo "rpc") <|
    .begin 0 .spawn :: turns 0 0 12 ++ .begin 0 (.scheduleAt "s" ⟨5⟩ [1]) :: turns 13 0 2 ++
      turns 12 1 4 ++ .begin 0 .reload :: turns 19 0 1 ++ turns 12 1 1 ++ turns 19 0 1 ++
        turns 12 1 1 ++ turns 19 0 1

theorem kept_by_reload_intime :
    ∃ newer before, Dispatched intime.history ∧
      Overlap intime 0 ⟨5, "s"⟩ ⟨19, 0⟩ ⟨12, 1⟩ newer before ∧ Unread ⟨5, "s"⟩ ⟨19, 0⟩ before ∧
        (⟨5, "s"⟩ : DelayedTask) ∈ intime.pending 0 := by
  have dispatched : Dispatched intime.history := .of_check (by decide +kernel)
  have reloading : intime.has ⟨19, 0⟩ 0 (.operation .reload) := by decide +kernel
  have adding : intime.has ⟨12, 1⟩ 0 (.loop (.dispatch 0 "consumer" ["s"] 0)) := by decide +kernel
  have overlap := Overlap.of_check (t := ⟨5, "s"⟩) (k := 2) reloading adding (by decide +kernel)
  have unread : Unread ⟨5, "s"⟩ ⟨19, 0⟩ (intime.history.tail.drop 3) :=
    .of_check (by decide +kernel)
  exact ⟨_, _, dispatched, overlap, unread,
    ((Reachable.start _).play _).kept_by_reload dispatched overlap unread⟩

/-- The same loop, but the reload reads the hash first: it overwrites what the loop tracks meanwhile. -/
def overwritten : State :=
  (State.start ⟨⟨0⟩, 0⟩).play (fun _ => .echo "rpc") <|
    .begin 0 .spawn :: turns 0 0 12 ++ .begin 0 (.scheduleAt "s" ⟨5⟩ [1]) :: turns 13 0 2 ++
      turns 12 1 4 ++ .begin 0 .reload :: turns 19 0 2 ++ turns 12 1 2 ++ turns 19 0 1

theorem not_kept_by_reload :
    ¬ ∀ (net : NodeId → Setup) (S : State) (n : NodeId) (t : DelayedTask) (u v : TaskId)
      (newer before : List Event), Reachable net S → Dispatched S.history → Launched S n →
        Overlap S n t u v newer before → t ∈ S.pending n := by
  intro hall
  have reach : Reachable (fun _ => .echo "rpc") overwritten := (Reachable.start _).play _
  have reloading : overwritten.has ⟨19, 0⟩ 0 (.operation .reload) := by decide +kernel
  have adding : overwritten.has ⟨12, 1⟩ 0 (.loop (.dispatch 0 "consumer" ["s"] 0)) := by
    decide +kernel
  have overlap := Overlap.of_check (t := ⟨5, "s"⟩) (k := 1) reloading adding (by decide +kernel)
  have tracked := hall _ _ _ _ _ _ _ _ reach (.of_check (by decide +kernel))
    (reach.launched adding) overlap
  have forgotten : (overwritten.pending 0).tasks = [] := by decide +kernel
  rw [TaskQueue.mem_def, forgotten] at tracked
  cases tracked

end BrokeredCalls.Network
