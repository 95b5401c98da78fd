import BrokeredCalls.Proofs.Hub.Queue
import BrokeredCalls.Proofs.Hub.Serve

/-!
What one deed makes of one queue. All that is shown of a queue over a run, its entries, its last id and
where its groups stand, goes back to these five cases.
-/

namespace BrokeredCalls.Hub

open Broker (Call)

def Action.Reads (g : String) : Action → Prop
  | .call (.readGroup group ..) => group = g
  | _ => False

namespace Deed

def appended (q : String) : Deed → List (String × Envelope)
  | ⟨.call (.append queue e _), .ok id⟩ => if queue = q then [(id, e.stored q)] else []
  | ⟨.call (.appendPlaceholder queue), .ok id⟩ => if queue = q then [(id, .placeholder q)] else []
  | _ => []

def delivered (g q : String) : Deed → List Delivery
  | ⟨.call (.readGroup group ..), .ok ds⟩ => if group = g then ds.filter (·.queue = q) else []
  | _ => []

def creates (g q : String) : Deed → Bool
  | ⟨.call (.createGroup queue group), .ok _⟩ => queue = q && group = g
  | _ => false

/-- The most that an append leaves in its queue. -/
def bound? (q : String) : Deed → Option Nat
  | ⟨.call (.append queue _ n), .ok _⟩ => if queue = q then some (max n 1) else none
  | _ => none

theorem bound?_of_appended {q : String} {d : Deed} (h : d.appended q = []) : d.bound? q = none := by
  unfold bound?
  split
  · next queue e n id =>
    refine if_neg fun hq => ?_
    rw [appended, if_pos hq] at h
    cases h
  · rfl

theorem call_ne_delete (c : Call) (q : String) : Action.call c ≠ .delete q := nofun

/-- What a deed that does not delete the queue is to it. -/
structure Shows (q : String) (d : Deed) (appended : List (String × Envelope))
    (delivered : String → List Delivery) (creates : String → Bool) : Prop where
  kept : d.1 ≠ .delete q
  appended : d.appended q = appended
  delivered : ∀ g, d.delivered g q = delivered g
  creates : ∀ g, d.creates g q = creates g

abbrev Spares (q : String) (d : Deed) : Prop := d.Shows q [] (fun _ => []) fun _ => false

theorem spares_error (q : String) (c : Call) (e : Error) : Spares q ⟨.call c, .error e⟩ := by
  refine ⟨call_ne_delete c q, ?_, fun g => ?_, fun g => ?_⟩ <;> cases c <;> rfl

end Deed

namespace Queue

inductive Taken (g : String) : Queue → List Entry → Queue → Prop
  | nothing (Q : Queue) : Taken g Q [] Q
  | more {Q Q' Q'' : Queue} {count : Nat} {es fs : List Entry}
    (took : Q.take? g count = some (es, Q')) (rest : Taken g Q' fs Q'') : Taken g Q (es ++ fs) Q''

structure Reread (g : String) (Q Q' : Queue) : Prop where
  entries : Q'.entries = Q.entries
  lastId : Q'.lastId = Q.lastId
  others : ∀ g', g' ≠ g → Q'.groups.find? g' = Q.groups.find? g'
  attached : ∀ g', (Q'.groups.find? g').isSome = (Q.groups.find? g').isSome

theorem reread_of_take? {g : String} {count : Nat} {Q Q' : Queue} {es : List Entry}
    (ht : Q.take? g count = some (es, Q')) : Reread g Q Q' := by
  obtain ⟨cursor, hcursor, -, ⟨-, rfl⟩ | ⟨newest, -, rfl⟩⟩ := take?_cases ht
  · exact ⟨rfl, rfl, fun _ _ => rfl, fun _ => rfl⟩
  · refine ⟨rfl, rfl, fun g' hg => by simp [Table.find?_set, hg], fun g' => ?_⟩
    rw [Table.find?_set]
    split
    · next heq =>
      rw [heq, hcursor]
      rfl
    · rfl

namespace Taken

variable {g : String} {Q Q' : Queue} {es : List Entry}

theorem reread (t : Taken g Q es Q') : Reread g Q Q' := by
  induction t with
  | nothing => exact ⟨rfl, rfl, fun _ _ => rfl, fun _ => rfl⟩
  | more took _ ih =>
    have first := reread_of_take? took
    exact ⟨ih.entries.trans first.entries, ih.lastId.trans first.lastId,
      fun g' hg => (ih.others g' hg).trans (first.others g' hg),
      fun g' => (ih.attached g').trans (first.attached g')⟩

theorem handed (t : Taken g Q es Q') (ascending : Ascending Q.entries) :
    es = [] ∧ Q' = Q ∨ Handed g Q es Q' := by
  induction t with
  | nothing => exact .inl ⟨rfl, rfl⟩
  | @more Q Q' Q'' count es fs took _ ih =>
    have first := take?_handed ascending took
    rcases ih (first.entries ▸ ascending) with ⟨rfl, rfl⟩ | rest
    · rw [List.append_nil]
      exact .inr first
    · exact .inr (first.trans rest)

end Taken
end Queue

open Queue (Taken)

theorem taken_of_takeAll {g : String} {count : Nat} {names : List String} {h h' : Hub}
    {ds : List Delivery} (ht : takeAll g count names h = (ds, h')) (q : String) :
    h.queues.find? q = none ∧ h'.queues.find? q = none ∧ ds.filter (·.queue = q) = [] ∨
      ∃ Q es Q', h.queues.find? q = some Q ∧ h'.queues.find? q = some Q' ∧ Taken g Q es Q' ∧
        ds.filter (·.queue = q) = es.map (Entry.delivery q) := by
  induction names generalizing h ds with
  | nil =>
    obtain ⟨rfl, rfl⟩ : [] = ds ∧ h = h' := Prod.mk.inj ht
    cases hfind : h.queues.find? q with
    | none => exact .inl ⟨rfl, rfl, rfl⟩
    | some Q => exact .inr ⟨Q, [], Q, rfl, rfl, .nothing Q, rfl⟩
  | cons name names ih =>
    unfold takeAll at ht
    split at ht
    · next es Q₁ htake =>
      obtain ⟨Q, there, took⟩ := Option.bind_eq_some_iff.mp htake
      generalize hrest : takeAll g count names { h with queues := h.queues.set name Q₁ } = p at ht
      obtain ⟨rest, h₁⟩ := p
      obtain ⟨rfl, rfl⟩ : es.map (Entry.delivery name) ++ rest = ds ∧ h₁ = h' := Prod.mk.inj ht
      have hih := ih hrest
      simp only [Table.find?_set] at hih
      rw [List.filter_append]
      by_cases hname : q = name
      · subst hname
        rw [if_pos rfl] at hih
        have own : (es.map (Entry.delivery q)).filter (·.queue = q) = es.map (Entry.delivery q) :=
          List.filter_eq_self.mpr (by simp [Entry.delivery])
        obtain ⟨hnone, -⟩ | ⟨Q₂, fs, Q', hsome, after, taken, given⟩ := hih
        · cases hnone
        · obtain rfl := Option.some.inj hsome
          exact .inr ⟨Q, es ++ fs, Q', there, after, .more took taken, by rw [own, given, List.map_append]⟩
      · rw [if_neg hname] at hih
        have foreign : (es.map (Entry.delivery name)).filter (·.queue = q) = [] :=
          List.filter_eq_nil_iff.mpr (by simp [Entry.delivery, Ne.symm hname])
        rwa [foreign, List.nil_append]
    · exact ih ht

inductive QueueChange (q : String) (now : Moment) (d : Deed) : Option Queue → Option Queue → Prop
  | idle (Q : Option Queue) (shows : d.Spares q) : QueueChange q now d Q Q
  | deleted (Q : Option Queue) (gone : d.1 = .delete q) : QueueChange q now d Q none
  | pushed (Q : Option Queue) (e : Envelope) (n : Option Nat) (bound : ∀ k, n = some k → 1 ≤ k)
    (trims : d.bound? q = n)
    (shows : d.Shows q [(((Q.getD .empty).push now.wall.millis e n).1.text, e)] (fun _ => [])
      fun _ => false) : QueueChange q now d Q (some ((Q.getD .empty).push now.wall.millis e n).2)
  | created (Q : Queue) (g : String) (deed : d = ⟨.call (.createGroup q g), .ok ()⟩) :
    QueueChange q now d (some Q) (some (Q.createGroup g))
  | taken (Q Q' : Queue) (g : String) (es : List Entry) (reads : d.1.Reads g)
    (taken : Taken g Q es Q')
    (shows : d.Shows q [] (fun g' => if g = g' then es.map (Entry.delivery q) else [])
      fun _ => false) : QueueChange q now d (some Q) (some Q')

theorem queueChange_append (h : Hub) (now : Moment) (queue : String) (e : Envelope) {n : Option Nat}
    (bound : ∀ k, n = some k → 1 ≤ k) {q : String} {d : Deed} (trims : queue = q → d.bound? q = n)
    (shows : d.Shows q (if queue = q then [((h.append now queue e n).1.text, e.stored q)] else [])
      (fun _ => []) fun _ => false) :
    QueueChange q now d (h.queues.find? q) ((h.append now queue e n).2.queues.find? q) := by
  have hset : (h.append now queue e n).2.queues.find? q = if q = queue then
      some (((h.queues.find? queue).getD .empty).push now.wall.millis (e.stored queue) n).2
      else h.queues.find? q := Table.find?_set ..
  rw [hset]
  by_cases hq : queue = q
  · subst hq
    rw [if_pos rfl] at shows ⊢
    exact .pushed _ _ n bound (trims rfl) shows
  · rw [if_neg hq] at shows
    rw [if_neg (Ne.symm hq)]
    exact .idle _ shows

theorem queueChange_of_does {h h' : Hub} {now : Moment} {a : Action} {r : a.Result}
    (hd : Does h now a r h') (q : String) :
    QueueChange q now ⟨a, r⟩ (h.queues.find? q) (h'.queues.find? q) := by
  cases a with
  | delete queue =>
    obtain ⟨-, rfl⟩ : _ = r ∧ { h with queues := h.queues.erase queue } = h' := Prod.mk.inj hd
    show QueueChange q now _ _ ((h.queues.erase queue).find? q)
    rw [Table.find?_erase]
    split
    · next heq => exact .deleted _ (by rw [heq])
    · next hne =>
      exact .idle _ ⟨fun heq => hne (Action.delete.inj heq).symm, rfl, fun _ => rfl, fun _ => rfl⟩
  | call c =>
    rcases hd.cases with ⟨deadline, hs⟩ | ⟨e, -, rfl, rfl⟩
    · cases c with
      | append queue e n =>
        obtain ⟨rfl, rfl⟩ := Prod.mk.inj (Option.some.inj hs)
        have bound : ∀ k, some (max n 1) = some k → 1 ≤ k := fun k hk => by cases hk; omega
        exact queueChange_append h now queue e bound (fun hq => if_pos hq)
          ⟨Deed.call_ne_delete _ q, rfl, fun _ => rfl, fun _ => rfl⟩
      | appendPlaceholder queue =>
        obtain ⟨rfl, rfl⟩ := Prod.mk.inj (Option.some.inj hs)
        have bound : ∀ k, none = some k → 1 ≤ k := fun k hk => by cases hk
        exact queueChange_append h now queue (.placeholder queue) bound (fun _ => rfl)
          ⟨Deed.call_ne_delete _ q, rfl, fun _ => rfl, fun _ => rfl⟩
      | createGroup queue group =>
        rcases serve_createGroup hs with ⟨rfl, -, rfl⟩ | ⟨Q, rfl, there, rfl⟩
        · exact .idle _ (Deed.spares_error q _ _)
        · show QueueChange q now _ _ ((h.queues.set queue (Q.createGroup group)).find? q)
          rw [Table.find?_set]
          split
          · next heq =>
            rw [heq, there]
            exact .created Q group rfl
          · next hne =>
            refine .idle _ ⟨Deed.call_ne_delete _ q, rfl, fun _ => rfl, fun g => ?_⟩
            simp [Deed.creates, Ne.symm hne]
      | readGroup group consumer queues count block =>
        rcases serve_readGroup hs with ⟨e, rfl, rfl⟩ | ⟨ds, htake, rfl⟩
        · exact .idle _ (Deed.spares_error q _ e)
        · rcases taken_of_takeAll htake q with
            ⟨before, after, given⟩ | ⟨Q, es, Q', before, after, taken, given⟩
          · rw [before, after]
            refine .idle _ ⟨Deed.call_ne_delete _ q, rfl, fun g => ?_, fun _ => rfl⟩
            simp [Deed.delivered, given]
          · rw [before, after]
            refine .taken Q Q' group es rfl taken
              ⟨Deed.call_ne_delete _ q, rfl, fun g => ?_, fun _ => rfl⟩
            simp [Deed.delivered, given]
      | _ =>
        rw [queues_of_serve hs rfl]
        exact .idle _ ⟨Deed.call_ne_delete _ q, rfl, fun _ => rfl, fun _ => rfl⟩
    · exact .idle _ (Deed.spares_error q c e)

end BrokeredCalls.Hub
