import BrokeredCalls.Proofs.Hub.Fields
import BrokeredCalls.Proofs.Shutdown.World

/-!
What is written down of the life of a node. The trail of a task is what the history has of it, and each
store is what the events made of it, one after the other.
-/

namespace BrokeredCalls.Shutdown

open Broker (Call)
open Network (Ending Job Setup Trail)
open Node (Effect Routine)

def doings (k : Nat) (history : List Event) : Trail :=
  history.filterMap fun e => e.doer.bind fun d => if d.1 = k then some d.2 else none

/-- An exchange that was a call on a broker; the stores know nothing of a close. -/
inductive Deals : Exchange Node.interface → BrokerId → Hub.Deed → Prop
  | call (b : BrokerId) (c : Call) (a : Except Error c.Value) (stays : c ≠ .close) :
    Deals ⟨.broker b c, a⟩ b ⟨.call c, a⟩
  | read (b : BrokerId) (g consumer : String) (services : List String) (count : Nat) (block : Duration)
    (stop : SignalId) (a : Except Error (List Delivery)) :
    Deals ⟨.readUnlessStopped b g consumer services count block stop, .value a⟩ b
      ⟨.call (.readGroup g consumer services count block), a⟩

theorem Deals.deal {x : Exchange Node.interface} {b : BrokerId} {d : Hub.Deed} (deals : Deals x b d) :
    Network.deal x = some d := by
  cases deals <;> rfl

theorem Deals.unique {x : Exchange Node.interface} {b b' : BrokerId} {d d' : Hub.Deed}
    (deals : Deals x b d) (deals' : Deals x b' d') : b' = b ∧ d' = d := by
  cases deals <;> cases deals' <;> exact ⟨rfl, rfl⟩

theorem Deals.exists_call {x : Exchange Node.interface} {b : BrokerId} {d : Hub.Deed}
    (deals : Deals x b d) : ∃ c v, d = ⟨.call c, v⟩ := by
  cases deals <;> exact ⟨_, _, rfl⟩

inductive Changed (storeOf : BrokerId → StoreId) (x : Exchange Node.interface)
    (before after : StoreId → Hub) : Prop
  | nothing (idle : ∀ b d, ¬ Deals x b d) (same : after = before)
  | deed (b : BrokerId) (d : Hub.Deed) (now : Moment) (deals : Deals x b d)
    (does : Hub.Does (before (storeOf b)) now d.1 d.2 (after (storeOf b)))
    (others : ∀ i, i ≠ storeOf b → after i = before i)

/-- Each event left the stores as the next one found them. -/
def Leads : List Event → (StoreId → Hub) → Prop
  | [], _ => True
  | e :: es, stores => e.after = stores ∧ Leads es e.before

structure World.Recorded (storeOf : BrokerId → StoreId) (w : World) : Prop where
  stores : ∀ i, Hub.Reachable (w.stores i)
  trails : ∀ k t, w.tasks[k]? = some t → t.trail = doings k w.history
  doers : ∀ e ∈ w.history, ∀ k x, e.doer = some (k, x) → k < w.tasks.length
  changed : ∀ e ∈ w.history, ∀ k x, e.doer = some (k, x) → Changed storeOf x e.before e.after
  found : ∀ e ∈ w.history, ∀ i, Hub.Reachable (e.before i)
  leads : Leads w.history w.stores

variable {node : Setup} {storeOf : BrokerId → StoreId} {w w₁ w' : World} {k i : Nat} {t u : Task}

theorem doings_append (k : Nat) (newer older : List Event) :
    doings k (newer ++ older) = doings k newer ++ doings k older := List.filterMap_append

theorem doings_cons_self {e : Event} {x : Exchange Node.interface} (h : e.doer = some (k, x))
    (history : List Event) : doings k (e :: history) = x :: doings k history := by
  simp [doings, h]

theorem doings_cons_other {e : Event} (h : ∀ x, e.doer ≠ some (k, x)) (history : List Event) :
    doings k (e :: history) = doings k history := by
  refine List.filterMap_cons_none ?_
  cases hd : e.doer with
  | none => rfl
  | some d =>
    obtain ⟨i, x⟩ := d
    exact if_neg fun same => h x (by rw [hd, ← same])

theorem exists_event {history : List Event} {x : Exchange Node.interface} (h : x ∈ doings k history) :
    ∃ e ∈ history, e.doer = some (k, x) := by
  obtain ⟨e, mem, he⟩ := List.mem_filterMap.mp h
  obtain ⟨⟨i, y⟩, doer, hy⟩ := Option.bind_eq_some_iff.mp he
  obtain ⟨rfl, rfl⟩ : i = k ∧ y = x := by simpa using hy
  exact ⟨e, mem, doer⟩

theorem doings_eq_nil {history : List Event} (h : ∀ e ∈ history, ∀ x, e.doer ≠ some (k, x)) :
    doings k history = [] := by
  induction history with
  | nil => rfl
  | cons e history ih =>
    obtain ⟨first, rest⟩ := List.forall_mem_cons.mp h
    rw [doings_cons_other first, ih rest]

namespace World

theorem store_self (w : World) (i : StoreId) (h : Hub) : (w.store i h).stores i = h := if_pos rfl

theorem store_other {n : StoreId} (other : n ≠ i) (h : Hub) : (w.store i h).stores n = w.stores n :=
  if_neg other

theorem task_put (h : (w.put k u).tasks[i]? = some t) :
    i = k ∧ t = u ∨ i ≠ k ∧ w.tasks[i]? = some t := by
  rw [put, List.getElem?_set] at h
  split at h
  · next same =>
    split at h
    · exact .inl ⟨same.symm, (Option.some.inj h).symm⟩
    · cases h
  · next other => exact .inr ⟨Ne.symm other, h⟩

theorem mem_put (h : t ∈ (w.put k u).tasks) : t = u ∨ t ∈ w.tasks :=
  (List.mem_or_eq_of_mem_set h).symm

theorem exists_put {P : Task → Prop} (here : w.tasks[k]? = some t) (goes : P t → P u)
    (h : ∃ v ∈ w.tasks, P v) : ∃ v ∈ (w.put k u).tasks, P v := by
  obtain ⟨v, mem, hv⟩ := h
  obtain ⟨i, there⟩ := List.getElem?_of_mem mem
  by_cases same : k = i
  · subst same
    obtain rfl := Option.some.inj (here.symm.trans there)
    exact ⟨u, List.mem_set (List.getElem?_eq_some_iff.mp here).1 u, goes hv⟩
  · exact ⟨v, List.mem_of_getElem? ((List.getElem?_set_ne same).trans there), hv⟩

theorem task_begin {jobs : List Job} (h : (w.begin node jobs).tasks[i]? = some t) :
    w.tasks[i]? = some t ∨ w.tasks.length ≤ i ∧ ∃ j ∈ jobs, t = Task.begun node.shared j := by
  rw [begin, List.getElem?_append] at h
  split at h
  · exact .inl h
  · next outside =>
    obtain ⟨j, hj, rfl⟩ := List.mem_map.mp (List.mem_of_getElem? h)
    exact .inr ⟨Nat.not_lt.mp outside, j, hj, rfl⟩

theorem mem_begin {jobs : List Job} (h : t ∈ (w.begin node jobs).tasks) :
    t ∈ w.tasks ∨ ∃ j ∈ jobs, t = Task.begun node.shared j := by
  obtain ⟨i, there⟩ := List.getElem?_of_mem h
  exact (task_begin there).imp List.mem_of_getElem? And.right

theorem exists_begin {jobs : List Job} {P : Task → Prop} (h : ∃ v ∈ w.tasks, P v) :
    ∃ v ∈ (w.begin node jobs).tasks, P v := by
  obtain ⟨v, mem, hv⟩ := h
  exact ⟨v, List.mem_append_left _ mem, hv⟩

end World

namespace Serves

variable {r : Effect} {a : r.Answer}

theorem tasks (serves : Serves node storeOf w r a w₁) : w₁.tasks = w.tasks := by
  cases serves <;> rfl

theorem history (serves : Serves node storeOf w r a w₁) : w₁.history = w.history := by
  cases serves <;> rfl

theorem changed (serves : Serves node storeOf w r a w₁) :
    Changed storeOf ⟨r, a⟩ w.stores w₁.stores := by
  cases serves with
  | call deadline stays served =>
    refine .deed _ _ w.now (.call _ _ _ stays) ?_ fun i other => World.store_other other _
    exact (w.store_self ..).symm ▸ .inl ⟨_, _, deadline, served⟩
  | read deadline served =>
    refine .deed _ _ w.now (.read ..) ?_ fun i other => World.store_other other _
    exact (w.store_self ..).symm ▸ .inl ⟨_, _, deadline, served⟩
  | close =>
    refine .nothing (fun b d deals => ?_) rfl
    cases deals with
    | call _ _ _ stays => exact stays rfl
  | _ => exact .nothing (fun b d deals => nomatch deals) rfl

end Serves

theorem Changed.reachable {x : Exchange Node.interface} {before after : StoreId → Hub}
    (changed : Changed storeOf x before after) (reachable : ∀ i, Hub.Reachable (before i)) (i : StoreId) :
    Hub.Reachable (after i) := by
  cases changed with
  | nothing _ same => exact same ▸ reachable i
  | deed b d now _ does others =>
    by_cases here : i = storeOf b
    · exact here ▸ .done (reachable _) does
    · exact others i here ▸ reachable i

namespace World.Recorded

theorem fresh (fresh : w.Fresh) : w.Recorded storeOf where
  stores := fresh.stores
  trails k t h := by
    rw [fresh.tasks] at h
    cases h
  doers e he := by
    rw [fresh.history] at he
    cases he
  changed e he := by
    rw [fresh.history] at he
    cases he
  found e he := by
    rw [fresh.history] at he
    cases he
  leads := by
    rw [fresh.history]
    trivial

theorem begin (recorded : w.Recorded storeOf) (jobs : List Job) :
    (w.begin node jobs).Recorded storeOf where
  stores := recorded.stores
  trails i t h := by
    rcases World.task_begin h with old | ⟨le, j, -, rfl⟩
    · exact recorded.trails i t old
    · refine (doings_eq_nil fun e he x hx => ?_).symm
      exact absurd (recorded.doers e he i x hx) (Nat.not_lt.mpr le)
  doers e he k x hx := by
    rw [World.begin, List.length_append]
    exact Nat.lt_add_right _ (recorded.doers e he k x hx)
  changed := recorded.changed
  found := recorded.found
  leads := recorded.leads

theorem outside (recorded : w.Recorded storeOf) {a : Hub.Action} {r : a.Result} {h : Hub}
    (does : Hub.Does (w.stores i) w.now a r h) : (w.note (w.store i h) none).Recorded storeOf where
  stores n := by
    show Hub.Reachable ((w.store i h).stores n)
    by_cases here : n = i
    · subst here
      rw [World.store_self]
      exact .done (recorded.stores n) does
    · rw [World.store_other here]
      exact recorded.stores n
  trails k t ht := by
    have same : doings k ((w.note (w.store i h) none).history) = doings k w.history :=
      doings_cons_other (fun x hx => by cases hx) _
    exact (recorded.trails k t ht).trans same.symm
  doers e he k x hx := by
    rcases List.mem_cons.mp he with rfl | he
    · cases hx
    · exact recorded.doers e he k x hx
  changed e he k x hx := by
    rcases List.mem_cons.mp he with rfl | he
    · cases hx
    · exact recorded.changed e he k x hx
  found := List.forall_mem_cons.mpr ⟨recorded.stores, recorded.found⟩
  leads := ⟨rfl, recorded.leads⟩

theorem put_again (recorded : w.Recorded storeOf) (here : w.tasks[k]? = some t)
    (same : u.trail = t.trail) : (w.put k u).Recorded storeOf where
  stores := recorded.stores
  trails i t' h := by
    rcases World.task_put h with ⟨rfl, rfl⟩ | ⟨-, old⟩
    · exact same.trans (recorded.trails i t here)
    · exact recorded.trails i t' old
  doers e he k x hx := by
    rw [World.put, List.length_set]
    exact recorded.doers e he k x hx
  changed := recorded.changed
  found := recorded.found
  leads := recorded.leads

theorem put_served (recorded : w.Recorded storeOf) {j : Job} {tr : Trail} {r : Effect}
    {next : r.Answer → Routine Ending} {a : r.Answer} (here : w.tasks[k]? = some ⟨j, .ask r next, tr⟩)
    (serves : Serves node storeOf w r a w₁) :
    ((w.note w₁ (some (k, ⟨r, a⟩))).put k ⟨j, next a, ⟨r, a⟩ :: tr⟩).Recorded storeOf := by
  have inside : k < w.tasks.length := (List.getElem?_eq_some_iff.mp here).1
  refine ⟨?_, fun i t h => ?_, ?_, ?_, ?_, ⟨rfl, ?_⟩⟩
  · exact serves.changed.reachable recorded.stores
  · show t.trail = doings i (_ :: w₁.history)
    rw [serves.history]
    rcases World.task_put h with ⟨rfl, rfl⟩ | ⟨other, old⟩
    · rw [doings_cons_self rfl, ← recorded.trails i _ here]
    · rw [doings_cons_other (by simp [Ne.symm other])]
      exact recorded.trails i t (serves.tasks ▸ old)
  · intro e he k' x hx
    show k' < (w₁.tasks.set k _).length
    rw [List.length_set, serves.tasks]
    rcases List.mem_cons.mp he with rfl | he
    · cases hx
      exact inside
    · exact recorded.doers e (serves.history ▸ he) k' x hx
  · intro e he k' x hx
    rcases List.mem_cons.mp he with rfl | he
    · cases hx
      exact serves.changed
    · exact recorded.changed e (serves.history ▸ he) k' x hx
  · exact List.forall_mem_cons.mpr ⟨recorded.stores, serves.history ▸ recorded.found⟩
  · exact serves.history ▸ recorded.leads

end World.Recorded

theorem Reachable.recorded (reachable : Reachable node storeOf w) : w.Recorded storeOf := by
  induction reachable with
  | fresh fresh => exact .fresh fresh
  | step _ step ih =>
    cases step with
    | pass now later => exact ⟨ih.stores, ih.trails, ih.doers, ih.changed, ih.found, ih.leads⟩
    | outside i does => exact ih.outside does
    | begin o alone once => exact ih.begin _
    | serve here serves => exact (ih.put_served here serves).begin _
    | again here => exact ih.put_again here rfl

theorem Leads.field {newer older : List Event} {e : Event} {stores : StoreId → Hub} {i : StoreId}
    {key f : String} (leads : Leads (newer ++ e :: older) stores)
    (since : ∀ e' ∈ newer, (e'.after i).field key f = (e'.before i).field key f) :
    (stores i).field key f = (e.after i).field key f := by
  induction newer generalizing stores with
  | nil =>
    obtain ⟨rfl, -⟩ := leads
    rfl
  | cons e' newer ih =>
    obtain ⟨rfl, earlier⟩ := leads
    obtain ⟨same, since⟩ := List.forall_mem_cons.mp since
    exact same.trans (ih earlier since)

end BrokeredCalls.Shutdown
