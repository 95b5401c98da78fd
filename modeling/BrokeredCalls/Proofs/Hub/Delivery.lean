import BrokeredCalls.Proofs.Hub.QueueChange

/-!
What one group is given of one queue, over a run that does not delete the queue. The account of a run
lists what was appended before and after the group came to be; its invariant is that the later part is
what was delivered, what was trimmed too early and what is still there above the cursor.
-/

namespace BrokeredCalls.Hub

open Broker (Call)

def queueAt (h : Hub) (q : String) : Queue := (h.queues.find? q).getD .empty

def undelivered (h : Hub) (g q : String) : List Entry := (h.queueAt q).undelivered g

def appendedTo (q : String) : List Deed → List (String × Envelope)
  | [] => []
  | d :: ds => appendedTo q ds ++ d.appended q

def appendedSince (g q : String) : List Deed → List (String × Envelope)
  | [] => []
  | d :: ds => if ds.any (Deed.creates g q) then appendedSince g q ds ++ d.appended q else []

def deliveredTo (g q : String) : List Deed → List Delivery
  | [] => []
  | d :: ds => deliveredTo g q ds ++ d.delivered g q

/-- Those of the oldest entries that a group was not given. -/
def Queue.unseen (q : Queue) (g : String) (n : Nat) : List Entry :=
  (q.entries.take n).filter (· ∈ q.undelivered g)

/-- What an append trimmed away before the group was given it. -/
def Transition.evicted (g q : String) (t : Transition) : List Entry :=
  let queue := t.before.queueAt q
  queue.unseen g (queue.excess (t.deed.bound? q))

def evictedFrom (g q : String) : List Transition → List Entry
  | [] => []
  | t :: ts => evictedFrom g q ts ++ t.evicted g q

def Entry.noted (e : Entry) : String × Envelope := (e.id.text, e.envelope)

namespace Queue

/-- Queues that a group cannot tell apart. -/
structure Alike (g : String) (q q' : Queue) : Prop where
  entries : q'.entries = q.entries
  lastId : q'.lastId = q.lastId
  cursor : q'.groups.find? g = q.groups.find? g

namespace Alike

variable {g : String} {q q' : Queue}

theorem refl (g : String) (q : Queue) : Alike g q q := ⟨rfl, rfl, rfl⟩

theorem undelivered (h : Alike g q q') : q'.undelivered g = q.undelivered g := by
  simp only [Queue.undelivered, h.cursor, h.entries]

theorem unseen (h : Alike g q q') (n : Nat) : q'.unseen g n = q.unseen g n := by
  simp only [Queue.unseen, h.undelivered, h.entries]

theorem excess (h : Alike g q q') (n : Option Nat) : q'.excess n = q.excess n := by
  simp only [Queue.excess, h.entries]

end Alike

theorem Reread.alike {g g' : String} {q q' : Queue} (r : Reread g q q') (hg : g' ≠ g) : Alike g' q q' :=
  ⟨r.entries, r.lastId, r.others g' hg⟩

theorem find?_createGroup (q : Queue) (g g' : String) :
    (q.createGroup g).groups.find? g' =
      if g' = g then some ((q.groups.find? g).getD q.lastId) else q.groups.find? g' := by
  unfold createGroup Table.contains
  cases hc : q.groups.find? g with
  | none => simp [Table.find?_set]
  | some c =>
    by_cases hg : g' = g
    · simp [hg, hc]
    · simp [hg]

theorem entries_createGroup (q : Queue) (g : String) : (q.createGroup g).entries = q.entries := by
  unfold createGroup
  split <;> rfl

theorem lastId_createGroup (q : Queue) (g : String) : (q.createGroup g).lastId = q.lastId := by
  unfold createGroup
  split <;> rfl

theorem alike_createGroup (q : Queue) {g g' : String} (hg : g' ≠ g) :
    Alike g' q (q.createGroup g) :=
  ⟨q.entries_createGroup g, q.lastId_createGroup g, by rw [find?_createGroup, if_neg hg]⟩

/-- What one deed does to a queue as a group sees it. -/
inductive Touch (g q : String) (d : Deed) (Q Q' : Queue) : Prop
  | idle (alike : Alike g Q Q') (appended : d.appended q = []) (delivered : d.delivered g q = [])
      (creates : d.creates g q = false)
  | pushed (e : Entry) (pushed : Pushed Q e (Q.excess (d.bound? q)) Q')
      (appended : d.appended q = [e.noted]) (delivered : d.delivered g q = [])
      (creates : d.creates g q = false)
  | created (eq : Q' = Q.createGroup g) (appended : d.appended q = [])
      (delivered : d.delivered g q = []) (creates : d.creates g q = true)
  | handed (es : List Entry) (handed : Handed g Q es Q') (appended : d.appended q = [])
      (delivered : d.delivered g q = es.map (Entry.delivery q)) (creates : d.creates g q = false)

end Queue

open Queue (Alike Handed Pushed Touch)

theorem queueAt_set (h : Hub) (q q' : String) (Q : Queue) (ls : Table String ReplyList)
    (hs : Table String (Table String Bytes)) :
    queueAt ⟨h.queues.set q Q, ls, hs⟩ q' = if q' = q then Q else h.queueAt q' := by
  unfold queueAt
  rw [Table.find?_set]
  split <;> simp_all

theorem queueAt_append (h : Hub) (now : Moment) (queue : String) (e : Envelope) (n : Option Nat)
    (q : String) : (h.append now queue e n).2.queueAt q =
      if q = queue then ((h.queueAt q).push now.wall.millis (e.stored q) n).2 else h.queueAt q := by
  unfold append
  rw [queueAt_set]
  split
  · next heq =>
    rw [heq]
    rfl
  · rfl

theorem touch_of_queueChange {q : String} {now : Moment} {d : Deed} {Q Q' : Option Queue}
    (change : QueueChange q now d Q Q') (kept : d.1 ≠ .delete q) (g : String)
    (hq : Ascending (Q.getD .empty).entries) : Touch g q d (Q.getD .empty) (Q'.getD .empty) := by
  cases change with
  | idle Q shows =>
    exact .idle (.refl g _) shows.appended (shows.delivered g) (shows.creates g)
  | deleted Q gone => exact absurd gone kept
  | pushed Q e n bound trims shows =>
    subst trims
    have hp := Queue.push_pushed (Q.getD .empty) now.wall.millis e bound
    exact .pushed _ hp shows.appended (shows.delivered g) (shows.creates g)
  | created Q g' deed =>
    subst deed
    by_cases hg : g' = g
    · subst hg
      exact .created rfl rfl rfl (by simp [Deed.creates])
    · exact .idle (Q.alike_createGroup (Ne.symm hg)) rfl rfl (by simp [Deed.creates, hg])
  | taken Q Q' g' es reads taken shows =>
    have hdel := shows.delivered g
    by_cases hg : g' = g
    · subst hg
      rw [if_pos rfl] at hdel
      rcases taken.handed hq with ⟨rfl, rfl⟩ | handed
      · exact .idle (.refl g' _) shows.appended hdel (shows.creates g')
      · exact .handed es handed shows.appended hdel (shows.creates g')
    · rw [if_neg hg] at hdel
      exact .idle (taken.reread.alike (Ne.symm hg)) shows.appended hdel (shows.creates g)

theorem touch_of_does {h h' : Hub} {now : Moment} {a : Action} {r : a.Result}
    (hd : Does h now a r h') (g q : String) (kept : a ≠ .delete q)
    (hq : Ascending (h.queueAt q).entries) : Touch g q ⟨a, r⟩ (h.queueAt q) (h'.queueAt q) :=
  touch_of_queueChange (queueChange_of_does hd q) kept g hq

theorem evicted_of_appended {g q : String} {t : Transition} (h : t.deed.appended q = []) :
    t.evicted g q = [] := by
  unfold Transition.evicted
  rw [Deed.bound?_of_appended h]
  rfl

namespace Queue

theorem unseen_of_cursor {q : Queue} {g : String} {c : EntryId} (h : q.groups.find? g = some c)
    (n : Nat) : q.unseen g n = (q.entries.take n).filter fun e => c < e.id := by
  refine List.filter_congr fun e he => ?_
  simp [mem_undelivered h, List.mem_of_mem_take he]

theorem unseen_of_none {q : Queue} {g : String} (h : q.groups.find? g = none) (n : Nat) :
    q.unseen g n = [] := by
  simp [unseen, undelivered_of_none h]

/-- The account of a run for a group of the queue: what was appended before and after the group came
to be, what it was given, and what was trimmed away unseen. -/
structure Account (g : String) (q : Queue) (earlier since delivered evicted : List Entry) : Prop where
  ascending : Ascending (earlier ++ since)
  bounded : ∀ e ∈ earlier ++ since, e.id ≤ q.lastId
  stored : q.entries <:+ earlier ++ since
  partition : since.Perm (delivered ++ evicted ++ q.undelivered g)
  inOrder : Ascending delivered
  cursor : ∀ c, q.groups.find? g = some c →
    c ≤ q.lastId ∧ (∀ e ∈ earlier, e.id ≤ c) ∧ ∀ e ∈ delivered, e.id ≤ c
  unread : q.groups.find? g = none → since = [] ∧ delivered = []

namespace Account

variable {g : String} {q q' : Queue} {earlier since delivered evicted : List Entry}

theorem ascending_entries (h : Account g q earlier since delivered evicted) : Ascending q.entries :=
  h.ascending.sublist h.stored.sublist

theorem empty (g : String) : Account g .empty [] [] [] [] := by
  refine ⟨.nil, by simp, by simp [Queue.empty], ?_, .nil, ?_, fun _ => ⟨rfl, rfl⟩⟩
  · rw [undelivered_of_none rfl]
    exact List.Perm.refl []
  · intro c hc
    cases hc

theorem alike (h : Account g q earlier since delivered evicted) (ha : Alike g q q') :
    Account g q' earlier since delivered evicted := by
  refine ⟨h.ascending, ?_, ?_, ?_, h.inOrder, ?_, ?_⟩
  · rw [ha.lastId]
    exact h.bounded
  · rw [ha.entries]
    exact h.stored
  · rw [ha.undelivered]
    exact h.partition
  · rw [ha.cursor, ha.lastId]
    exact h.cursor
  · rw [ha.cursor]
    exact h.unread

/-- What is above the cursor after a push is what was there and the new entry, less what went. -/
theorem unseen_append_undelivered {e : Entry} {dropped : Nat} (hp : Pushed q e dropped q')
    {c : EntryId} (hc : q.groups.find? g = some c) (hce : c < e.id) :
    q.unseen g dropped ++ q'.undelivered g = q.undelivered g ++ [e] := by
  have hc' : q'.groups.find? g = some c := by rw [hp.groups, hc]
  rw [unseen_of_cursor hc, undelivered_of_cursor hc', undelivered_of_cursor hc, hp.entries,
    ← List.take_append_of_le_length hp.dropped_le, ← List.filter_append, List.take_append_drop,
    List.filter_append]
  simp [hce]

theorem pushed (h : Account g q earlier since delivered evicted) {e : Entry} {dropped : Nat}
    (hp : Pushed q e dropped q') :
    (q.groups.find? g = none ∧ Account g q' (earlier ++ [e]) since delivered (evicted ++ q.unseen g dropped)) ∨
    (q.groups.find? g ≠ none ∧ Account g q' earlier (since ++ [e]) delivered (evicted ++ q.unseen g dropped)) := by
  have hnew : ∀ a ∈ earlier ++ since, a.id < e.id := fun a ha =>
    EntryId.lt_of_le_of_lt (h.bounded a ha) hp.lt_id
  have hall : Ascending (earlier ++ since ++ [e]) := h.ascending.snoc h.bounded hp.lt_id
  have hbound : ∀ a ∈ earlier ++ since ++ [e], a.id ≤ q'.lastId := by
    intro a ha
    rw [hp.lastId]
    rcases List.mem_append.mp ha with ha | ha
    · exact EntryId.le_of_lt (hnew a ha)
    · rw [List.mem_singleton.mp ha]
      exact EntryId.le_refl _
  have hkept : q'.entries <:+ earlier ++ since ++ [e] := by
    rw [hp.entries]
    obtain ⟨rest, hrest⟩ := h.stored
    exact (List.drop_suffix _ _).trans ⟨rest, by rw [← List.append_assoc, hrest]⟩
  have hle : ∀ {c : EntryId}, c ≤ q.lastId → c ≤ q'.lastId := by
    intro c hc
    rw [hp.lastId]
    exact EntryId.le_trans hc (EntryId.le_of_lt hp.lt_id)
  cases hg : q.groups.find? g with
  | none =>
    obtain ⟨rfl, rfl⟩ := h.unread hg
    have hg' : q'.groups.find? g = none := by rw [hp.groups, hg]
    refine .inl ⟨rfl, by simpa using hall, by simpa using hbound, by simpa using hkept, ?_, .nil,
      ?_, fun _ => ⟨rfl, rfl⟩⟩
    · have hp := h.partition
      rw [undelivered_of_none hg] at hp
      rwa [unseen_of_none hg, undelivered_of_none hg', List.append_nil]
    · rw [hg']
      intro c hc
      cases hc
  | some c =>
    obtain ⟨hcl, hearlier, hdel⟩ := h.cursor c hg
    have hg' : q'.groups.find? g = some c := by rw [hp.groups, hg]
    have hsum := unseen_append_undelivered hp hg (EntryId.lt_of_le_of_lt hcl hp.lt_id)
    refine .inr ⟨by simp, by simpa using hall, by simpa using hbound, by simpa using hkept, ?_,
      h.inOrder, ?_, ?_⟩
    · calc since ++ [e]
        _ |>.Perm (delivered ++ evicted ++ q.undelivered g ++ [e]) := h.partition.append_right _
        _ = delivered ++ (evicted ++ q.unseen g dropped) ++ q'.undelivered g := by
          rw [List.append_assoc _ _ [e], ← hsum]
          simp
    · rw [hg']
      rintro _ ⟨⟩
      exact ⟨hle hcl, hearlier, hdel⟩
    · rw [hg']
      intro hn
      cases hn

theorem created (h : Account g q earlier since delivered evicted) :
    Account g (q.createGroup g) earlier since delivered evicted := by
  cases hg : q.groups.find? g with
  | some c =>
    have hsame : q.createGroup g = q := by simp [createGroup, Table.contains, hg]
    rwa [hsame]
  | none =>
    obtain ⟨rfl, rfl⟩ := h.unread hg
    have hcur : (q.createGroup g).groups.find? g = some q.lastId := by
      rw [find?_createGroup, if_pos rfl, hg]
      rfl
    have hnone : (q.createGroup g).undelivered g = [] := by
      rw [undelivered_of_cursor hcur, q.entries_createGroup]
      refine List.filter_eq_nil_iff.mpr fun e he => ?_
      simpa using EntryId.not_lt.mpr (h.bounded e (h.stored.subset he))
    refine ⟨h.ascending, ?_, ?_, ?_, .nil, ?_, fun _ => ⟨rfl, rfl⟩⟩
    · rw [q.lastId_createGroup]
      exact h.bounded
    · rw [q.entries_createGroup]
      exact h.stored
    · have hp := h.partition
      rw [undelivered_of_none hg] at hp
      rwa [hnone]
    · rw [hcur, q.lastId_createGroup]
      rintro _ ⟨⟩
      exact ⟨EntryId.le_refl _, by simpa using h.bounded, by simp⟩

theorem handed (h : Account g q earlier since delivered evicted) {es : List Entry}
    (hh : Handed g q es q') : Account g q' earlier since (delivered ++ es) evicted := by
  obtain ⟨c, c', hc, hc', hle, hes, hfrom⟩ := hh.cursor
  obtain ⟨hcl, hearlier, hdel⟩ := h.cursor c hc
  have hlast : c' ≤ q.lastId := by
    rcases hfrom with rfl | ⟨e, he, rfl⟩
    · exact hcl
    · exact h.bounded e (h.stored.subset he)
  have hsub : Ascending es := by
    refine h.ascending_entries.sublist (List.Sublist.trans ?_ (List.filter_sublist (p := fun e => c < e.id)))
    rw [← undelivered_of_cursor hc, hh.split]
    exact List.sublist_append_left _ _
  refine ⟨h.ascending, ?_, ?_, ?_, ?_, ?_, ?_⟩
  · rw [hh.lastId]
    exact h.bounded
  · rw [hh.entries]
    exact h.stored
  · have hp := h.partition
    rw [hh.split] at hp
    refine hp.trans ?_
    rw [← List.append_assoc]
    refine List.Perm.append_right _ ?_
    rw [List.append_assoc, List.append_assoc]
    exact List.perm_append_comm.append_left _
  · exact Ascending.append_iff.mpr ⟨h.inOrder, hsub, fun a ha b hb =>
      EntryId.lt_of_le_of_lt (hdel a ha) (hh.lt_of_mem hc hb).2⟩
  · rw [hc', hh.lastId]
    rintro _ ⟨⟩
    refine ⟨hlast, fun e he => EntryId.le_trans (hearlier e he) hle, fun e he => ?_⟩
    rcases List.mem_append.mp he with he | he
    · exact EntryId.le_trans (hdel e he) hle
    · exact hes e he
  · rw [hc']
    intro hn
    cases hn

end Account
end Queue

open Queue (Account)

structure Booked (g q : String) (ts : List Transition) (h : Hub)
    (earlier since delivered : List Entry) : Prop where
  account : Account g (h.queueAt q) earlier since delivered (evictedFrom g q ts)
  appended : appendedTo q (deeds ts) = (earlier ++ since).map Entry.noted
  recent : appendedSince g q (deeds ts) = since.map Entry.noted
  delivered : deliveredTo g q (deeds ts) = delivered.map (Entry.delivery q)
  created : (deeds ts).any (Deed.creates g q) = ((h.queueAt q).groups.find? g).isSome

theorem appendedSince_eq_nil {g q : String} {ds : List Deed}
    (h : ds.any (Deed.creates g q) = false) : appendedSince g q ds = [] := by
  cases ds with
  | nil => rfl
  | cons d ds =>
    rw [List.any_cons, Bool.or_eq_false_iff] at h
    rw [appendedSince, h.2]
    rfl

theorem appendedSince_cons {g q : String} {d : Deed} {ds : List Deed} (h : d.appended q = []) :
    appendedSince g q (d :: ds) = appendedSince g q ds := by
  rw [appendedSince, h, List.append_nil]
  split
  · rfl
  · next hany => exact (appendedSince_eq_nil (Bool.not_eq_true _ ▸ hany)).symm

namespace Booked

variable {g q : String} {ts : List Transition} {h : Hub} {t : Transition}
  {earlier since delivered : List Entry}

theorem quiet (b : Booked g q ts t.before earlier since delivered) {es : List Entry}
    (account : Account g (t.after.queueAt q) earlier since (delivered ++ es)
      (evictedFrom g q (t :: ts)))
    (appended : t.deed.appended q = []) (given : t.deed.delivered g q = es.map (Entry.delivery q))
    (created : (t.deed.creates g q || ((t.before.queueAt q).groups.find? g).isSome) =
      ((t.after.queueAt q).groups.find? g).isSome) :
    Booked g q (t :: ts) t.after earlier since (delivered ++ es) := by
  refine ⟨account, ?_, ?_, ?_, ?_⟩
  · show appendedTo q (deeds ts) ++ t.deed.appended q = _
    rw [appended, List.append_nil, b.appended]
  · show appendedSince g q (t.deed :: deeds ts) = _
    rw [appendedSince_cons appended, b.recent]
  · show deliveredTo g q (deeds ts) ++ t.deed.delivered g q = _
    rw [b.delivered, given, List.map_append]
  · show (t.deed.creates g q || (deeds ts).any (Deed.creates g q)) = _
    rw [b.created, created]

theorem pushed (b : Booked g q ts t.before earlier since delivered) {e : Entry}
    (hp : Queue.Pushed (t.before.queueAt q) e ((t.before.queueAt q).excess (t.deed.bound? q))
      (t.after.queueAt q))
    (appended : t.deed.appended q = [e.noted]) (given : t.deed.delivered g q = [])
    (creates : t.deed.creates g q = false) :
    ∃ earlier since, Booked g q (t :: ts) t.after earlier since delivered := by
  have happ : appendedTo q (deeds (t :: ts)) = (earlier ++ since).map Entry.noted ++ [e.noted] := by
    show appendedTo q (deeds ts) ++ t.deed.appended q = _
    rw [appended, b.appended]
  have hgiven : deliveredTo g q (deeds (t :: ts)) = delivered.map (Entry.delivery q) := by
    show deliveredTo g q (deeds ts) ++ t.deed.delivered g q = _
    rw [given, List.append_nil, b.delivered]
  have hcreated : (deeds (t :: ts)).any (Deed.creates g q) =
      ((t.after.queueAt q).groups.find? g).isSome := by
    show (t.deed.creates g q || (deeds ts).any (Deed.creates g q)) = _
    rw [creates, Bool.false_or, b.created, hp.groups]
  have hrecent : appendedSince g q (deeds (t :: ts)) =
      if ((t.before.queueAt q).groups.find? g).isSome then since.map Entry.noted ++ [e.noted]
      else [] := by
    show (if (deeds ts).any (Deed.creates g q) then
      appendedSince g q (deeds ts) ++ t.deed.appended q else []) = _
    rw [b.created, b.recent, appended]
  rcases b.account.pushed hp with ⟨hnone, account⟩ | ⟨hsome, account⟩
  · obtain ⟨rfl, -⟩ := b.account.unread hnone
    refine ⟨earlier ++ [e], [], account, by simpa using happ, ?_, hgiven, hcreated⟩
    rw [hrecent, hnone]
    rfl
  · refine ⟨earlier, since ++ [e], account, by simpa using happ, ?_, hgiven, hcreated⟩
    rw [hrecent, if_pos (Option.isSome_iff_ne_none.mpr hsome), List.map_append]
    rfl

theorem step (b : Booked g q ts t.before earlier since delivered)
    (does : Does t.before t.now t.action t.result t.after) (kept : t.action ≠ .delete q) :
    ∃ earlier since delivered, Booked g q (t :: ts) t.after earlier since delivered := by
  have untrimmed (appended : t.deed.appended q = []) :
      evictedFrom g q (t :: ts) = evictedFrom g q ts := by
    rw [evictedFrom, evicted_of_appended appended, List.append_nil]
  cases touch_of_does does g q kept b.account.ascending_entries with
  | idle alike appended given creates =>
    refine ⟨earlier, since, delivered ++ [], b.quiet ?_ appended given ?_⟩
    · rw [untrimmed appended, List.append_nil]
      exact b.account.alike alike
    · rw [alike.cursor]
      exact (congrArg (· || _) creates).trans (Bool.false_or _)
  | pushed e pushed appended given creates =>
    obtain ⟨earlier, since, hb⟩ := b.pushed pushed appended given creates
    exact ⟨earlier, since, delivered, hb⟩
  | created eq appended given creates =>
    refine ⟨earlier, since, delivered ++ [], b.quiet ?_ appended given ?_⟩
    · rw [untrimmed appended, List.append_nil, eq]
      exact b.account.created
    · rw [eq, Queue.find?_createGroup, if_pos rfl]
      exact (congrArg (· || _) creates).trans (Bool.true_or _)
  | handed es handed appended given creates =>
    refine ⟨earlier, since, delivered ++ es, b.quiet ?_ appended given ?_⟩
    · rw [untrimmed appended]
      exact b.account.handed handed
    · obtain ⟨c, c', hc, hc', -⟩ := handed.cursor
      rw [hc, hc']
      exact Bool.or_true _

theorem eq_of_all {h : Hub} (b : Booked g q ts h earlier since delivered)
    (all : ∀ e ∈ since, ∃ e' ∈ delivered, e'.id = e.id) : since = delivered := by
  have hsince : Ascending since := b.account.ascending.sublist (List.sublist_append_right _ _)
  have hsubset : ∀ e ∈ delivered, e ∈ since := fun e he =>
    b.account.partition.mem_iff.mpr (by simp [he])
  have hmem : ∀ e, e ∈ since ↔ e ∈ delivered := by
    refine fun e => ⟨fun he => ?_, hsubset e⟩
    obtain ⟨e', he', hid⟩ := all e he
    rwa [← hsince.eq_of_id (hsubset e' he') he hid]
  have hperm : since.Perm delivered :=
    (List.perm_ext_iff_of_nodup hsince.nodup b.account.inOrder.nodup).mpr hmem
  refine hperm.eq_of_pairwise (fun a c _ _ hac hca => ?_) hsince b.account.inOrder
  exact absurd (EntryId.lt_trans hac hca) (EntryId.lt_irrefl _)

end Booked

theorem Run.booked {h₀ h : Hub} {ts : List Transition} (run : Run h₀ ts h) {q : String}
    (absent : h₀.queues.find? q = none) (kept : ∀ t ∈ ts, t.action ≠ .delete q) (g : String) :
    ∃ earlier since delivered, Booked g q ts h earlier since delivered := by
  induction run with
  | start =>
    have hempty : h₀.queueAt q = .empty := by simp [queueAt, absent]
    refine ⟨[], [], [], ?_, rfl, rfl, rfl, ?_⟩
    · rw [hempty]
      exact Account.empty g
    · rw [hempty]
      rfl
  | step t earlier does ih =>
    obtain ⟨_, _, _, b⟩ := ih fun t ht => kept t (List.mem_cons_of_mem _ ht)
    exact b.step does (kept t List.mem_cons_self)

end BrokeredCalls.Hub
