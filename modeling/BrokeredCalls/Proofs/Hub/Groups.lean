import BrokeredCalls.Proofs.Hub.Delivery

/-!
Groups do not affect each other. Two stores that differ only in the cursors of other groups give the
same answers, so what other groups were created and given can be erased from a run.
-/

namespace BrokeredCalls.Hub

open Broker (Call)

namespace Queue.Alike

variable {g : String} {q q' : Queue}

theorem push (a : Alike g q q') (now : Nat) (e : Envelope) (n : Option Nat) :
    (q'.push now e n).1 = (q.push now e n).1 ∧
      Alike g (q.push now e n).2 (q'.push now e n).2 := by
  have hid : (q'.push now e n).1 = (q.push now e n).1 := by
    show q'.lastId.after now = q.lastId.after now
    rw [a.lastId]
  refine ⟨hid, ?_, hid, a.cursor⟩
  simp only [Queue.push, a.entries, a.lastId]

theorem createGroup (a : Alike g q q') : Alike g (q.createGroup g) (q'.createGroup g) := by
  refine ⟨?_, ?_, ?_⟩
  · rw [entries_createGroup, entries_createGroup, a.entries]
  · rw [lastId_createGroup, lastId_createGroup, a.lastId]
  · rw [find?_createGroup, find?_createGroup, if_pos rfl, if_pos rfl, a.cursor, a.lastId]

theorem take? (a : Alike g q q') (count : Nat) :
    q.take? g count = none ∧ q'.take? g count = none ∨
      ∃ es k k', q.take? g count = some (es, k) ∧ q'.take? g count = some (es, k') ∧
        Alike g k k' := by
  unfold Queue.take?
  rw [a.cursor]
  cases hc : q.groups.find? g with
  | none => exact .inl ⟨rfl, rfl⟩
  | some c =>
    have hfresh : q'.fresh c count = q.fresh c count := by
      unfold fresh
      rw [a.entries]
    simp only [Option.bind_eq_bind, Option.bind_some, hfresh]
    cases (q.fresh c count).getLast? with
    | none => exact .inr ⟨_, _, _, rfl, rfl, a⟩
    | some e =>
      refine .inr ⟨_, _, _, rfl, rfl, a.entries, a.lastId, ?_⟩
      simp [Table.find?_set]

theorem trans {q'' : Queue} (a : Alike g q q') (b : Alike g q' q'') : Alike g q q'' :=
  ⟨b.entries.trans a.entries, b.lastId.trans a.lastId, b.cursor.trans a.cursor⟩

theorem symm (a : Alike g q q') : Alike g q' q := ⟨a.entries.symm, a.lastId.symm, a.cursor.symm⟩

end Queue.Alike

def ignoresQueues : Call → Bool
  | .queueExists _ | .queueLength _ | .listGroups _ => false
  | c => !touchesQueues c

theorem serve_withQueues (h : Hub) (qs : Table String Queue) {now : Moment} {deadline : Nat}
    {c : Call} (hc : ignoresQueues c = true) :
    serve { h with queues := qs } now deadline c =
      (h.serve now deadline c).map fun (r, h') => (r, { h' with queues := qs }) := by
  cases c with
  | popReply key timeout =>
    have hpop : popReply { h with queues := qs } now key =
        ((h.popReply now key).1, { (h.popReply now key).2 with queues := qs }) := by
      have hlive : liveList? { h with queues := qs } now key = h.liveList? now key := rfl
      unfold popReply
      rw [hlive]
      split <;> rfl
    simp only [serve, hpop]
    generalize h.popReply now key = p
    obtain ⟨v, k⟩ := p
    cases v with
    | some v => rfl
    | none =>
      by_cases hdue : deadline ≤ now.clock
      · simp [hdue]
      · simp [hdue]
  | hashTake key field =>
    simp only [serve, hashTake]
    split <;> rfl
  | hashDelete key field =>
    simp only [serve, hashTake]
    split <;> rfl
  | append | appendPlaceholder | createGroup | readGroup => cases hc
  | queueExists | queueLength | listGroups => cases hc
  | _ => rfl

structure Alike (g : String) (h k : Hub) : Prop where
  queues : ∀ q, Option.Rel (Queue.Alike g) (h.queues.find? q) (k.queues.find? q)
  lists : k.lists = h.lists
  hashes : k.hashes = h.hashes

def Action.isForeign (g : String) : Action → Bool
  | .call (.createGroup _ group) => group ≠ g
  | .call (.readGroup group ..) => group ≠ g
  | .call (.listGroups _) => true
  | _ => false

namespace Alike

variable {g : String} {h k : Hub}

theorem refl (g : String) (h : Hub) : Alike g h h := by
  refine ⟨fun q => ?_, rfl, rfl⟩
  cases h.queues.find? q with
  | none => exact .none
  | some Q => exact .some (.refl g Q)

theorem queueAt (a : Alike g h k) (q : String) : Queue.Alike g (h.queueAt q) (k.queueAt q) := by
  have hq := a.queues q
  unfold Hub.queueAt
  revert hq
  cases h.queues.find? q <;> cases k.queues.find? q <;> intro hq <;> cases hq
  · exact .refl g _
  · assumption

theorem isSome (a : Alike g h k) (q : String) :
    (k.queues.find? q).isSome = (h.queues.find? q).isSome := by
  have hq := a.queues q
  revert hq
  cases h.queues.find? q <;> cases k.queues.find? q <;> intro hq <;> cases hq <;> rfl

theorem set (a : Alike g h k) (q : String) {Q Q' : Queue} (hQ : Queue.Alike g Q Q') :
    Alike g { h with queues := h.queues.set q Q } { k with queues := k.queues.set q Q' } := by
  refine ⟨fun q' => ?_, a.lists, a.hashes⟩
  show Option.Rel _ ((h.queues.set q Q).find? q') ((k.queues.set q Q').find? q')
  rw [Table.find?_set, Table.find?_set]
  split
  · exact .some hQ
  · exact a.queues q'

theorem of_set (h : Hub) {q : String} {Q Q' : Queue} (hfind : h.queues.find? q = some Q)
    (hQ : Queue.Alike g Q Q') : Alike g h { h with queues := h.queues.set q Q' } := by
  refine ⟨fun q' => ?_, rfl, rfl⟩
  show Option.Rel _ _ ((h.queues.set q Q').find? q')
  rw [Table.find?_set]
  split
  · next heq =>
    rw [heq, hfind]
    exact .some hQ
  · exact (refl g h).queues q'

theorem append (a : Alike g h k) (now : Moment) (q : String) (e : Envelope) (n : Option Nat) :
    (k.append now q e n).1 = (h.append now q e n).1 ∧
      Alike g (h.append now q e n).2 (k.append now q e n).2 := by
  have hp := (a.queueAt q).push now.wall.millis (e.stored q) n
  exact ⟨hp.1, a.set q hp.2⟩

theorem carries (a : Alike g h k) (q : String) : k.carries q g = h.carries q g := by
  have hq := a.queues q
  unfold Hub.carries
  revert hq
  cases h.queues.find? q <;> cases k.queues.find? q <;> intro hq <;> cases hq
  · rfl
  · next hQ => simp only [Table.contains, hQ.cursor]

theorem takeAll (a : Alike g h k) (count : Nat) (names : List String) :
    (Hub.takeAll g count names k).1 = (Hub.takeAll g count names h).1 ∧
      Alike g (Hub.takeAll g count names h).2 (Hub.takeAll g count names k).2 := by
  induction names generalizing h k with
  | nil => exact ⟨rfl, a⟩
  | cons name names ih =>
    unfold Hub.takeAll
    have hq := a.queues name
    cases hh : h.queues.find? name with
    | none =>
      rw [hh] at hq
      cases hk : k.queues.find? name with
      | none => exact ih a
      | some Q' =>
        rw [hk] at hq
        cases hq
    | some Q =>
      rw [hh] at hq
      cases hk : k.queues.find? name with
      | none =>
        rw [hk] at hq
        cases hq
      | some Q' =>
        rw [hk] at hq
        cases hq with
        | some hQ =>
          rcases hQ.take? count with ⟨hn, hn'⟩ | ⟨es, Q₁, Q₁', hs, hs', hQ₁⟩
          · simp only [Option.bind_some, hn, hn']
            exact ih a
          · simp only [Option.bind_some, hs, hs']
            obtain ⟨heq, ha⟩ := ih (a.set name hQ₁)
            exact ⟨congrArg _ heq, ha⟩

theorem read (a : Alike g h k) (queues : List String) (count : Nat) :
    (∃ e, h.read g queues count = .error e ∧ k.read g queues count = .error e) ∨
      ∃ ds h' k', h.read g queues count = .ok (ds, h') ∧ k.read g queues count = .ok (ds, k') ∧
        Alike g h' k' := by
  unfold Hub.read
  simp only [a.carries]
  cases queues.find? fun q => !h.carries q g with
  | some q => exact .inl ⟨_, rfl, rfl⟩
  | none =>
    obtain ⟨heq, ha⟩ := a.takeAll (max count 1) queues
    exact .inr ⟨_, _, _, rfl, by rw [← heq], ha⟩

theorem serve_of_untouched (a : Alike g h k) {h' : Hub} {now : Moment} {deadline : Nat} {c : Call}
    {r : Except Error c.Value} (hs : h.serve now deadline c = some (r, h'))
    (hc : touchesQueues c = false) (hg : (Action.call c).isForeign g = false) :
    ∃ k', k.serve now deadline c = some (r, k') ∧ Alike g h' k' := by
  have hk : k = { h with queues := k.queues } := by rw [← a.lists, ← a.hashes]
  cases c with
  | append | appendPlaceholder | createGroup | readGroup => cases hc
  | listGroups q => cases hg
  | queueExists q =>
    obtain ⟨rfl, rfl⟩ := Prod.mk.inj (Option.some.inj hs)
    exact ⟨k, by simp [serve, Table.contains, a.isSome], a⟩
  | queueLength q =>
    obtain ⟨rfl, rfl⟩ := Prod.mk.inj (Option.some.inj hs)
    have hlen : k.queueLength q = h.queueLength q := by
      have hq := a.queues q
      unfold queueLength
      revert hq
      cases h.queues.find? q <;> cases k.queues.find? q <;> intro hq <;> cases hq
      · rfl
      · next hQ => simp only [hQ.entries]
    exact ⟨k, by simp [serve, hlen], a⟩
  | _ =>
    refine ⟨{ h' with queues := k.queues }, ?_, ?_, rfl, rfl⟩
    · rw [hk, serve_withQueues _ _ rfl, hs]
      rfl
    · intro q
      rw [queues_of_serve hs rfl]
      exact a.queues q

theorem serve (a : Alike g h k) {h' : Hub} {now : Moment} {deadline : Nat} {c : Call}
    {r : Except Error c.Value} (hs : h.serve now deadline c = some (r, h'))
    (hg : (Action.call c).isForeign g = false) :
    ∃ k', k.serve now deadline c = some (r, k') ∧ Alike g h' k' := by
  cases c with
  | append q e n =>
    simp only [Hub.serve, Option.some.injEq, Prod.mk.injEq] at hs
    obtain ⟨rfl, rfl⟩ := hs
    obtain ⟨hid, ha⟩ := a.append now q e (some (max n 1))
    exact ⟨_, by simp only [Hub.serve, hid], ha⟩
  | appendPlaceholder q =>
    simp only [Hub.serve, Option.some.injEq, Prod.mk.injEq] at hs
    obtain ⟨rfl, rfl⟩ := hs
    obtain ⟨hid, ha⟩ := a.append now q (.placeholder q) none
    exact ⟨_, by simp only [Hub.serve, hid], ha⟩
  | createGroup q group =>
    obtain rfl : group = g := by simpa [Action.isForeign] using hg
    have hq := a.queues q
    simp only [Hub.serve, Hub.createGroup] at hs ⊢
    revert hq hs
    cases h.queues.find? q <;> cases k.queues.find? q <;> intro hs hq <;> cases hq
    · obtain ⟨rfl, rfl⟩ := Prod.mk.inj (Option.some.inj hs)
      exact ⟨k, rfl, a⟩
    · next hQ =>
      obtain ⟨rfl, rfl⟩ := Prod.mk.inj (Option.some.inj hs)
      exact ⟨_, rfl, a.set q hQ.createGroup⟩
  | readGroup group consumer queues count block =>
    obtain rfl : group = g := by simpa [Action.isForeign] using hg
    simp only [Hub.serve] at hs ⊢
    rcases a.read queues count with ⟨e, hh, hk⟩ | ⟨ds, h₁, k₁, hh, hk, ha⟩
    · rw [hh] at hs
      obtain ⟨rfl, rfl⟩ := Prod.mk.inj (Option.some.inj hs)
      exact ⟨k, by rw [hk], a⟩
    · rw [hh] at hs
      rw [hk]
      cases ds with
      | nil =>
        by_cases hdue : deadline ≤ now.clock
        · simp only [hdue, if_true] at hs ⊢
          obtain ⟨rfl, rfl⟩ := Prod.mk.inj (Option.some.inj hs)
          exact ⟨k₁, rfl, ha⟩
        · simp [hdue] at hs
      | cons d ds =>
        obtain ⟨rfl, rfl⟩ := Prod.mk.inj (Option.some.inj hs)
        exact ⟨k₁, rfl, ha⟩
  | _ => exact a.serve_of_untouched hs rfl hg

theorem does (a : Alike g h k) {h' : Hub} {now : Moment} {act : Action} {r : act.Result}
    (hd : Does h now act r h') (hg : act.isForeign g = false) :
    ∃ k', Does k now act r k' ∧ Alike g h' k' := by
  cases act with
  | delete q =>
    obtain ⟨rfl, rfl⟩ : h.queues.contains q = r ∧ { h with queues := h.queues.erase q } = h' :=
      Prod.mk.inj hd
    refine ⟨{ k with queues := k.queues.erase q }, ?_, fun q' => ?_, a.lists, a.hashes⟩
    · simp [Does, deleteQueue, Table.contains, a.isSome]
    · show Option.Rel _ ((h.queues.erase q).find? q') ((k.queues.erase q).find? q')
      rw [Table.find?_erase, Table.find?_erase]
      split
      · exact .none
      · exact a.queues q'
  | call c =>
    rcases hd.cases with ⟨deadline, hs⟩ | ⟨e, he, rfl, rfl⟩
    · obtain ⟨k', hs', ha⟩ := a.serve hs hg
      exact ⟨k', does_of_serve hs', ha⟩
    · exact ⟨k, .inr ⟨e, he, rfl, rfl⟩, a⟩

theorem trans {l : Hub} (a : Alike g h k) (b : Alike g k l) : Alike g h l := by
  refine ⟨fun q => ?_, b.lists.trans a.lists, b.hashes.trans a.hashes⟩
  have hq := a.queues q
  have hq' := b.queues q
  revert hq hq'
  cases h.queues.find? q <;> cases k.queues.find? q <;> cases l.queues.find? q <;>
    intro hq hq' <;> cases hq <;> cases hq'
  · exact .none
  · next hQ hQ' => exact .some (hQ.trans hQ')

theorem symm (a : Alike g h k) : Alike g k h := by
  refine ⟨fun q => ?_, a.lists.symm, a.hashes.symm⟩
  have hq := a.queues q
  revert hq
  cases h.queues.find? q <;> cases k.queues.find? q <;> intro hq <;> cases hq
  · exact .none
  · next hQ => exact .some hQ.symm

end Alike

theorem alike_takeAll {g g' : String} (hg : g' ≠ g) {h h' : Hub} {count : Nat}
    {names : List String} {ds : List Delivery} (ht : takeAll g' count names h = (ds, h')) :
    Alike g h h' := by
  have rest := takeAll_rest g' count names h
  rw [ht] at rest
  refine ⟨fun q => ?_, rest.1, rest.2⟩
  rcases taken_of_takeAll ht q with ⟨before, after, -⟩ | ⟨Q, es, Q', before, after, taken, -⟩
  · rw [before, after]
    exact .none
  · rw [before, after]
    exact .some (taken.reread.alike (Ne.symm hg))

theorem alike_of_foreign {g : String} {h h' : Hub} {now : Moment} {a : Action} {r : a.Result}
    (hd : Does h now a r h') (hg : a.isForeign g = true) : Alike g h h' := by
  cases a with
  | delete q => cases hg
  | call c =>
    rcases hd.cases with ⟨deadline, hs⟩ | ⟨-, -, -, rfl⟩
    · cases c with
      | createGroup q group =>
        have hne : group ≠ g := by simpa [Action.isForeign] using hg
        rcases serve_createGroup hs with ⟨-, -, rfl⟩ | ⟨Q, -, hfind, rfl⟩
        · exact .refl g _
        · exact .of_set h hfind (Q.alike_createGroup (Ne.symm hne))
      | readGroup group consumer queues count block =>
        have hne : group ≠ g := by simpa [Action.isForeign] using hg
        rcases serve_readGroup hs with ⟨-, -, rfl⟩ | ⟨ds, htake, -⟩
        · exact .refl g _
        · exact alike_takeAll hne htake
      | listGroups q =>
        obtain ⟨-, rfl⟩ := Prod.mk.inj (Option.some.inj hs)
        exact .refl g h
      | _ => cases hg
    · exact .refl g _

theorem Alike.undelivered {g : String} {h k : Hub} (a : Alike g h k) (q : String) :
    k.undelivered g q = h.undelivered g q := (a.queueAt q).undelivered

theorem Alike.evicted {g : String} {t u : Transition} (a : Alike g t.before u.before)
    (deed : u.deed = t.deed) (q : String) : u.evicted g q = t.evicted g q := by
  show (u.before.queueAt q).unseen g ((u.before.queueAt q).excess (u.deed.bound? q)) = _
  rw [(a.queueAt q).unseen, (a.queueAt q).excess, deed]
  rfl

theorem appended_of_foreign {g : String} {d : Deed} (hg : d.1.isForeign g = true) (q : String) :
    d.appended q = [] := by
  obtain ⟨a, r⟩ := d
  cases a with
  | delete queue => rfl
  | call c =>
    cases c with
    | append | appendPlaceholder => cases hg
    | _ => rfl

theorem delivered_of_foreign {g : String} {d : Deed} (hg : d.1.isForeign g = true) (q : String) :
    d.delivered g q = [] := by
  obtain ⟨a, r⟩ := d
  cases a with
  | delete queue => rfl
  | call c =>
    cases c with
    | readGroup group consumer queues count block =>
      have hne : group ≠ g := by simpa [Action.isForeign] using hg
      cases r with
      | error e => rfl
      | ok ds => exact if_neg hne
    | _ => rfl

/-- What other groups do can be erased from a run: the rest then goes the same way, at the same
moments and to the same ends. -/
theorem Run.without {h₀ h : Hub} {ts : List Transition} (run : Run h₀ ts h) (g : String) :
    ∃ ts' h', Run h₀ ts' h' ∧ Alike g h h' ∧
      ts'.map (fun t => (t.now, t.deed)) =
        (ts.filter fun t => !t.action.isForeign g).map (fun t => (t.now, t.deed)) ∧
      ∀ q, deliveredTo g q (deeds ts') = deliveredTo g q (deeds ts) ∧
        evictedFrom g q ts' = evictedFrom g q ts := by
  induction run with
  | start => exact ⟨[], h₀, .start, .refl g h₀, rfl, fun _ => ⟨rfl, rfl⟩⟩
  | step t earlier does ih =>
    obtain ⟨ts', h', run, alike, heq, hsame⟩ := ih
    cases hg : t.action.isForeign g with
    | true =>
      have hafter := alike_of_foreign does hg
      refine ⟨ts', h', run, hafter.symm.trans alike, ?_, fun q => ⟨?_, ?_⟩⟩
      · rw [List.filter_cons_of_neg (by simp [hg]), heq]
      · show _ = deliveredTo g q _ ++ t.deed.delivered g q
        rw [delivered_of_foreign (d := t.deed) hg q, List.append_nil, (hsame q).1]
        rfl
      · have untrimmed : t.evicted g q = [] := evicted_of_appended (appended_of_foreign hg q)
        rw [evictedFrom, untrimmed, List.append_nil, (hsame q).2]
    | false =>
      obtain ⟨k, hdoes, hk⟩ := alike.does does hg
      let u : Transition := ⟨h', t.now, t.action, t.result, k⟩
      refine ⟨u :: ts', k, .step u run hdoes, hk, ?_, fun q => ⟨?_, ?_⟩⟩
      · rw [List.filter_cons_of_pos (by simp [hg]), List.map_cons, List.map_cons, heq]
        rfl
      · show deliveredTo g q (deeds ts') ++ t.deed.delivered g q =
          deliveredTo g q (deeds _) ++ t.deed.delivered g q
        rw [(hsame q).1]
      · rw [evictedFrom, evictedFrom, (hsame q).2, alike.evicted (u := u) rfl q]

/-- Over a run between two deletions of a queue, a group is given in ascending order, each once,
entries that were appended after it was created. Of these it misses those trimmed away too early and
those that are still there for it. It would be given the same if no other group were. -/
theorem delivery_exact {h₀ h : Hub} {ts : List Transition} (run : Run h₀ ts h) {q : String}
    (absent : h₀.queues.find? q = none) (kept : ∀ t ∈ ts, t.action ≠ .delete q) (g : String) :
    (∃ earlier since delivered : List Entry,
      appendedTo q (deeds ts) = (earlier ++ since).map Entry.noted ∧
      appendedSince g q (deeds ts) = since.map Entry.noted ∧
      deliveredTo g q (deeds ts) = delivered.map (Entry.delivery q) ∧
      Ascending (earlier ++ since) ∧ Ascending delivered ∧
      since.Perm (delivered ++ evictedFrom g q ts ++ h.undelivered g q) ∧
      ∀ e ∈ earlier, e ∉ delivered) ∧
    ∃ ts' h', Run h₀ ts' h' ∧
      ts'.map (fun t => (t.now, t.deed)) =
        (ts.filter fun t => !t.action.isForeign g).map (fun t => (t.now, t.deed)) ∧
      deliveredTo g q (deeds ts') = deliveredTo g q (deeds ts) ∧
      evictedFrom g q ts' = evictedFrom g q ts ∧ h'.undelivered g q = h.undelivered g q := by
  constructor
  · obtain ⟨earlier, since, delivered, b⟩ := run.booked absent kept g
    refine ⟨earlier, since, delivered, b.appended, b.recent, b.delivered, b.account.ascending,
      b.account.inOrder, b.account.partition, fun e he hd => ?_⟩
    have hsince : e ∈ since := by
      rw [b.account.partition.mem_iff]
      simp [hd]
    have hlt := (Ascending.append_iff.mp b.account.ascending).2.2 e he e hsince
    exact EntryId.lt_irrefl e.id hlt
  · obtain ⟨ts', h', run', alike, heq, hsame⟩ := run.without g
    exact ⟨ts', h', run', heq, (hsame q).1, (hsame q).2, alike.undelivered q⟩

/-- The wall clock goes back, one entry is trimmed away unseen and another group reads first. -/
def trimmedCalls : List (Moment × Call) :=
  [(⟨⟨0⟩, 5⟩, .readGroup "g" "c" ["q", "q"] 1 ⟨0⟩),
    (⟨⟨0⟩, 4⟩, .append "q" (.immediate "q" [3]) 2),
    (⟨⟨1000000⟩, 4⟩, .readGroup "g'" "c" ["q"] 1 ⟨0⟩),
    (⟨⟨1000000⟩, 3⟩, .append "q" (.immediate "q" [2]) 2),
    (⟨⟨2000000⟩, 2⟩, .append "q" (.immediate "q" [1]) 2),
    (⟨⟨2000000⟩, 1⟩, .createGroup "q" "g'"),
    (⟨⟨2000000⟩, 1⟩, .createGroup "q" "g"),
    (⟨⟨2000000⟩, 0⟩, .appendPlaceholder "q")]

theorem delivery_exact_trimmed :
    deliveredTo "g" "q" (deeds (perform empty trimmedCalls).1) =
      [⟨"q", "2-2", ⟨"q", [2], none, some "2-2"⟩⟩, ⟨"q", "2-3", ⟨"q", [3], none, some "2-3"⟩⟩] ∧
    (evictedFrom "g" "q" (perform empty trimmedCalls).1).map Entry.noted =
      [("2-1", .immediate "q" [1])] ∧
    (∃ earlier since delivered : List Entry,
      appendedTo "q" (deeds (perform empty trimmedCalls).1) = (earlier ++ since).map Entry.noted ∧
      appendedSince "g" "q" (deeds (perform empty trimmedCalls).1) = since.map Entry.noted ∧
      deliveredTo "g" "q" (deeds (perform empty trimmedCalls).1) =
        delivered.map (Entry.delivery "q") ∧
      Ascending (earlier ++ since) ∧ Ascending delivered ∧
      since.Perm (delivered ++ evictedFrom "g" "q" (perform empty trimmedCalls).1 ++
        (perform empty trimmedCalls).2.undelivered "g" "q") ∧
      ∀ e ∈ earlier, e ∉ delivered) :=
  ⟨by decide +kernel, by decide +kernel,
    (delivery_exact (run_perform empty trimmedCalls) (q := "q") rfl (by decide +kernel) "g").1⟩

end BrokeredCalls.Hub
