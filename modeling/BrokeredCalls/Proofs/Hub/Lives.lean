import BrokeredCalls.Proofs.Hub.Delivery
import BrokeredCalls.Proofs.Hub.Replies
import BrokeredCalls.Proofs.Text.Keys

/-!
The ids of a queue over several lives. While the queue lives they ascend; a deletion forgets the last
one, and the next life counts from the wall clock again, but reply lists outlive the queue. So an id
comes back only if the queue was made anew while the clock showed nothing later than that id.
-/

namespace BrokeredCalls

theorem EntryId.le_millis_after (last : EntryId) (now : Nat) : now ≤ (last.after now).millis := by
  unfold EntryId.after
  split
  · exact Nat.le_refl now
  · next hlt => exact Nat.not_lt.mp hlt

namespace Hub

open Broker (Call)

def lastId? (h : Hub) (q : String) : Option EntryId := (h.queues.find? q).map (·.lastId)

inductive Aging (q : String) (now : Moment) (d : Deed) (last : Option EntryId) :
    Option EntryId → Prop
  | same (kept : d.1 ≠ .delete q) (appended : d.appended q = []) : Aging q now d last last
  | deleted (gone : d.1 = .delete q) : Aging q now d last none
  | entered (e : Envelope) (kept : d.1 ≠ .delete q)
    (appended : d.appended q = [(((last.getD ⟨0, 0⟩).after now.wall.millis).text, e)]) :
    Aging q now d last (some ((last.getD ⟨0, 0⟩).after now.wall.millis))

theorem aging_of_does {h h' : Hub} {now : Moment} {a : Action} {r : a.Result}
    (hd : Does h now a r h') (q : String) : Aging q now ⟨a, r⟩ (h.lastId? q) (h'.lastId? q) := by
  have change := queueChange_of_does hd q
  unfold lastId?
  generalize h.queues.find? q = Q at change ⊢
  generalize h'.queues.find? q = Q' at change ⊢
  cases change with
  | idle Q shows => exact .same shows.kept shows.appended
  | deleted Q gone => exact .deleted gone
  | pushed Q e n bound _ shows =>
    have last : ((Q.map (·.lastId)).getD ⟨0, 0⟩) = (Q.getD .empty).lastId := by cases Q <;> rfl
    have aging : Aging q now ⟨a, r⟩ (Q.map (·.lastId)) _ := .entered e shows.kept (last ▸ shows.appended)
    rwa [last] at aging
  | created Q g deed =>
    rw [deed, Option.map_some, Option.map_some, Queue.lastId_createGroup]
    exact .same nofun rfl
  | taken Q Q' g es reads taken shows =>
    rw [Option.map_some, Option.map_some, taken.reread.lastId]
    exact .same shows.kept shows.appended

def Transition.Enters (q : String) (t : Transition) (i : EntryId) : Prop :=
  ∃ e, t.deed.appended q = [(i.text, e)]

/-- The queue was not there and the entry made it. -/
def Transition.Founds (q : String) (t : Transition) : Prop :=
  t.before.lastId? q = none ∧ ∃ i, t.Enters q i

theorem entered_of_does {t : Transition} (does : Does t.before t.now t.action t.result t.after)
    {q : String} {i : EntryId} (enters : t.Enters q i) :
    t.action ≠ .delete q ∧ i = ((t.before.lastId? q).getD ⟨0, 0⟩).after t.now.wall.millis ∧
      t.after.lastId? q = some i := by
  obtain ⟨e, happ⟩ := enters
  have aging := aging_of_does does q
  generalize t.after.lastId? q = after at aging ⊢
  cases aging with
  | same kept none =>
    rw [Transition.deed, none] at happ
    cases happ
  | deleted gone =>
    obtain ⟨before, now, action, result, after⟩ := t
    obtain rfl : action = .delete q := gone
    cases happ
  | entered e' kept some =>
    rw [Transition.deed, some] at happ
    have htext := (Prod.mk.inj (List.cons.inj happ).1).1
    obtain rfl := EntryId.text_injective htext
    exact ⟨kept, rfl, rfl⟩

theorem Run.lastId_le {h₀ h : Hub} {ts : List Transition} (run : Run h₀ ts h) {q : String}
    (kept : ∀ t ∈ ts, t.action ≠ .delete q) {i : EntryId} (here : h₀.lastId? q = some i) :
    ∃ j, h.lastId? q = some j ∧ i ≤ j := by
  induction run with
  | start => exact ⟨i, here, EntryId.le_refl i⟩
  | step t earlier does ih =>
    obtain ⟨j, hj, hle⟩ := ih fun u hu => kept u (List.mem_cons_of_mem _ hu)
    have aging := aging_of_does does q
    rw [hj] at aging
    generalize t.after.lastId? q = after at aging
    cases aging with
    | same => exact ⟨j, rfl, hle⟩
    | deleted gone => exact absurd gone (kept t List.mem_cons_self)
    | entered => exact ⟨_, rfl, EntryId.le_trans hle (EntryId.le_of_lt (EntryId.lt_after j _))⟩

/-- A queue that is there was there before the run, or was made in it, at a moment that its ids have
not fallen behind since. -/
theorem Run.founded {h₀ h : Hub} {ts : List Transition} (run : Run h₀ ts h) {q : String}
    {j : EntryId} (here : h.lastId? q = some j) :
    (h₀.lastId? q ≠ none ∧ ∀ t ∈ ts, t.action ≠ .delete q) ∨
      ∃ u ∈ ts, u.Founds q ∧ u.now.wall.millis ≤ j.millis := by
  induction run generalizing j with
  | start => exact .inl ⟨by simp [here], by simp⟩
  | @step older t earlier does ih =>
    have aging := aging_of_does does q
    rw [here] at aging
    generalize hb : t.before.lastId? q = before at aging
    have old {i : EntryId} (hi : t.before.lastId? q = some i) (kept : t.action ≠ .delete q)
        (hle : i.millis ≤ j.millis) :
        (h₀.lastId? q ≠ none ∧ ∀ u ∈ t :: older, u.action ≠ .delete q) ∨
          ∃ u ∈ t :: older, u.Founds q ∧ u.now.wall.millis ≤ j.millis := by
      rcases ih hi with ⟨hthere, hkept⟩ | ⟨u, hu, hfounds, hmillis⟩
      · exact .inl ⟨hthere, List.forall_mem_cons.mpr ⟨kept, hkept⟩⟩
      · exact .inr ⟨u, List.mem_cons_of_mem _ hu, hfounds, Nat.le_trans hmillis hle⟩
    cases aging with
    | same kept none => exact old hb kept (Nat.le_refl _)
    | entered e kept some =>
      cases before with
      | none =>
        refine .inr ⟨t, List.mem_cons_self, ⟨hb, _, e, some⟩, ?_⟩
        exact EntryId.le_millis_after _ _
      | some i =>
        have hlt := EntryId.lt_def.mp (EntryId.lt_after i t.now.wall.millis)
        exact old hb kept (by simp only [Option.getD_some]; omega)

/-- Between an entry and a later one of the same id the queue was deleted, and it was made anew while
the wall clock showed nothing later than that id. -/
structure Reborn (q : String) (i : EntryId) (later : Transition) (between : List Transition) : Prop where
  deleted : ∃ d ∈ between, d.action = .delete q
  founded : ∃ u ∈ later :: between, u.Founds q ∧ u.now.wall.millis ≤ i.millis

theorem Run.reborn {h₀ h : Hub} {t t' : Transition} {between older : List Transition}
    (run : Run h₀ (t' :: (between ++ t :: older)) h) {q : String} {i : EntryId}
    (enters : t.Enters q i) (again : t'.Enters q i) : Reborn q i t' between := by
  obtain ⟨run, does', -⟩ := run.last
  obtain ⟨h₁, hold, run⟩ := run.split
  obtain ⟨-, does, rfl⟩ := hold.last
  obtain ⟨-, -, hlast⟩ := entered_of_does does enters
  obtain ⟨-, hid, -⟩ := entered_of_does does' again
  have deleted : ∃ d ∈ between, d.action = .delete q := by
    refine Classical.byContradiction fun hnone => ?_
    have hkept : ∀ d ∈ between, d.action ≠ .delete q := fun d hd heq => hnone ⟨d, hd, heq⟩
    obtain ⟨j, hj, hle⟩ := run.lastId_le hkept hlast
    rw [hj, Option.getD_some] at hid
    have hlt := EntryId.lt_of_le_of_lt hle (EntryId.lt_after j t'.now.wall.millis)
    rw [← hid] at hlt
    exact EntryId.lt_irrefl i hlt
  refine ⟨deleted, ?_⟩
  cases hb : t'.before.lastId? q with
  | none =>
    refine ⟨t', List.mem_cons_self, ⟨hb, i, again⟩, ?_⟩
    rw [hid]
    exact EntryId.le_millis_after _ _
  | some j =>
    rcases run.founded hb with ⟨-, hkept⟩ | ⟨u, hu, hfounds, hmillis⟩
    · obtain ⟨d, hd, hgone⟩ := deleted
      exact absurd hgone (hkept d hd)
    · refine ⟨u, List.mem_cons_of_mem _ hu, hfounds, Nat.le_trans hmillis ?_⟩
      rw [hb, Option.getD_some] at hid
      have hlt := EntryId.lt_def.mp (EntryId.lt_after j t'.now.wall.millis)
      rw [hid]
      omega

def RepliesToEntries : List Transition → Prop
  | [] => True
  | p :: older => (∀ q (i : EntryId) frame ttl,
      p.deed = ⟨.call (.pushReply (Key.reply q i.text) frame ttl), .ok ()⟩ →
        ∃ t ∈ older, t.Enters q i) ∧ RepliesToEntries older

theorem RepliesToEntries.entered {ts : List Transition} (h : RepliesToEntries ts) {q : String}
    {i : EntryId} {frame : Bytes} (pushed : frame ∈ pushedTo (Key.reply q i.text) (deeds ts)) :
    ∃ t ∈ ts, t.Enters q i := by
  obtain ⟨ttl, hdeed⟩ := mem_pushedTo pushed
  obtain ⟨p, hp, hpush⟩ := List.mem_map.mp hdeed
  clear pushed hdeed
  induction ts with
  | nil => cases hp
  | cons u older ih =>
    obtain ⟨t, ht, henters⟩ : ∃ t ∈ older, t.Enters q i := by
      rcases List.mem_cons.mp hp with rfl | hp
      · exact h.1 q i frame ttl hpush
      · exact ih h.2 hp
    exact ⟨t, List.mem_cons_of_mem _ ht, henters⟩

theorem RepliesToEntries.older {newer older : List Transition}
    (h : RepliesToEntries (newer ++ older)) : RepliesToEntries older := by
  induction newer with
  | nil => exact h
  | cons t newer ih => exact ih h.2

theorem Transition.Enters.not_pushed {q : String} {t : Transition} {i : EntryId}
    (enters : t.Enters q i) (key : String) : t.deed.pushed key = [] := by
  obtain ⟨before, now, action, result, after⟩ := t
  obtain ⟨e, happ⟩ := enters
  cases action with
  | delete queue => rfl
  | call c =>
    cases c with
    | pushReply => cases happ
    | _ => rfl

structure Identified (ts : List Transition) : Prop where
  distinct : ∀ q, (∀ t ∈ ts, t.action ≠ .delete q) → ((appendedTo q (deeds ts)).map (·.1)).Nodup
  /-- An id comes back only in a later life of its queue, begun under a clock that had not passed it. -/
  reused : ∀ newer t' between t older q i, ts = newer ++ t' :: (between ++ t :: older) →
    t.Enters q i → t'.Enters q i → Reborn q i t' between
  keys : ∀ q q' (i i' : EntryId), Key.reply q i.text = Key.reply q' i'.text → q = q' ∧ i = i'
  /-- Whoever waits for the reply to an entry takes one that was left since, unless the id came back. -/
  stale : RepliesToEntries ts → ∀ newer t' older q i frame, ts = newer ++ t' :: older →
    t'.Enters q i → frame ∈ poppedFrom (Key.reply q i.text) (deeds newer) →
      frame ∈ pushedTo (Key.reply q i.text) (deeds newer) ∨
        ∃ between t oldest, older = between ++ t :: oldest ∧ t.Enters q i ∧ Reborn q i t' between

theorem Run.identified {h : Hub} {ts : List Transition} (run : Run empty ts h) : Identified ts where
  distinct q kept := by
    obtain ⟨earlier, since, _, b⟩ := run.booked rfl kept ""
    rw [b.appended, List.map_map]
    exact b.account.ascending.nodup_map fun a b htext => EntryId.text_injective htext
  reused newer t' between t older q i hts enters again := by
    subst hts
    obtain ⟨h₁, hold, -⟩ := run.split
    exact hold.reborn enters again
  keys q q' i i' hkey := Key.reply_injective hkey
  stale replies newer t' older q i frame hts enters popped := by
    subst hts
    obtain ⟨h₁, hold, hnew⟩ := run.split
    have htaken := (hnew.frames_since (Key.reply q i.text)).subset (List.mem_append_left _ popped)
    rcases List.mem_append.mp htaken with hleft | hpushed
    · have hpushed := (hold.frames (Key.reply q i.text)).subset (List.mem_append_right _ hleft)
      rw [deeds, List.map_cons, pushedTo, enters.not_pushed, List.append_nil] at hpushed
      obtain ⟨t, ht, henters⟩ := replies.older.2.entered hpushed
      obtain ⟨between, oldest, rfl⟩ := List.append_of_mem ht
      exact .inr ⟨between, t, oldest, rfl, henters, hold.reborn henters enters⟩
    · exact .inl hpushed

/-- A caller gave up, its reply came late, the queue was deleted, and the next caller finds a reply. -/
def remade : List (Moment × Action) :=
  [(⟨⟨5000000⟩, 4⟩, .call (.popReply (Key.reply "s" "5-0") ⟨1⟩)),
    (⟨⟨5000000⟩, 3⟩, .call (.append "s" (.immediate "s" [2]) 8)),
    (⟨⟨5000000⟩, 2⟩, .delete "s"),
    (⟨⟨5000000⟩, 1⟩, .call (.pushReply (Key.reply "s" "5-0") [7] ⟨9⟩)),
    (⟨⟨5000000⟩, 0⟩, .call (.append "s" (.immediate "s" [1]) 8))]

theorem identified_remade :
    appendedTo "s" (deeds (enact empty remade).1) =
        [("5-0", .immediate "s" [1]), ("5-0", .immediate "s" [2])] ∧
      Identified (enact empty remade).1 :=
  ⟨by decide +kernel, (run_enact empty remade).identified⟩

theorem enters_remade : ∃ pop again deletion push first,
    (enact empty remade).1 = [pop] ++ again :: [deletion, push, first] ∧
      again.Enters "s" ⟨5, 0⟩ ∧ first.Enters "s" ⟨5, 0⟩ ∧
      poppedFrom (Key.reply "s" "5-0") (deeds [pop]) = [[7]] ∧
      pushedTo (Key.reply "s" "5-0") (deeds [pop]) = [] := by
  refine ⟨_, _, _, _, _, rfl, ⟨.immediate "s" [2], ?_⟩, ⟨.immediate "s" [1], ?_⟩, ?_, ?_⟩
  all_goals decide +kernel

theorem repliesToEntries_remade : RepliesToEntries (enact empty remade).1 := by
  refine ⟨?pop, ?again, ?deletion, ?push, ?first, trivial⟩
  case push =>
    intro q i frame ttl hpush
    have hcall := Action.call.inj (congrArg Sigma.fst hpush)
    obtain ⟨rfl, rfl⟩ := Key.reply_injective (i := ⟨5, 0⟩) (Broker.Call.pushReply.inj hcall).1
    exact ⟨_, List.mem_cons_self, _, rfl⟩
  all_goals
    intro q i frame ttl hpush
    cases congrArg Sigma.fst hpush

/-- Ids do come back, and a caller may be handed a reply that was left before its entry. -/
theorem not_distinct_ids :
    (¬ ∀ ts h, Run empty ts h → ∀ q, ((appendedTo q (deeds ts)).map (·.1)).Nodup) ∧
      ¬ ∀ ts h, Run empty ts h → RepliesToEntries ts →
        ∀ newer t older q (i : EntryId) frame, ts = newer ++ t :: older → t.Enters q i →
          frame ∈ poppedFrom (Key.reply q i.text) (deeds newer) →
            frame ∈ pushedTo (Key.reply q i.text) (deeds newer) := by
  constructor
  · intro hall
    have hnodup := hall _ _ (run_enact empty remade) "s"
    exact absurd hnodup (by decide +kernel)
  · intro hall
    obtain ⟨pop, again, deletion, push, first, hts, henters, -, hpopped, hpushed⟩ := enters_remade
    have hmem := hall _ _ (run_enact empty remade) repliesToEntries_remade _ _ _ "s" ⟨5, 0⟩ [7]
      hts henters (by
        show _ ∈ poppedFrom (Key.reply "s" "5-0") _
        rw [hpopped]
        exact List.mem_singleton_self _)
    have hnone : ([7] : Bytes) ∈ pushedTo (Key.reply "s" "5-0") (deeds [pop]) := hmem
    rw [hpushed] at hnone
    cases hnone

end Hub
end BrokeredCalls
