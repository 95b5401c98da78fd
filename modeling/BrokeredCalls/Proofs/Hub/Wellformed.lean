import BrokeredCalls.Proofs.Hub.Fields
import BrokeredCalls.Proofs.Hub.Looking

/-!
What holds of a store whatever was done to it: no stored queue, reply list or hash is empty, the ids of
a queue ascend up to its last one, no group stands beyond that, and what is stored is named for its
queue alone. An append keeps of the queue the newest entries that its bound allows.
-/

namespace BrokeredCalls.Hub

open Broker (Call)

/-- The stores that come of an empty one. A call that waits also looks in vain before it ends. -/
inductive Reachable : Hub → Prop
  | empty : Reachable empty
  | done {h h' : Hub} {now : Moment} {a : Action} {r : a.Result} (earlier : Reachable h)
    (does : Does h now a r h') : Reachable h'
  | looked {h h' : Hub} {now : Moment} {c : Call} (earlier : Reachable h)
    (vain : h.look now c = (none, h')) : Reachable h'

namespace Queue

structure Regular (name : String) (Q : Queue) : Prop where
  ascending : Ascending Q.entries
  le_lastId : ∀ e ∈ Q.entries, e.id ≤ Q.lastId
  cursors : ∀ g c, Q.groups.find? g = some c → c ≤ Q.lastId
  stored : ∀ e ∈ Q.entries, e.envelope.service = name ∧ e.envelope.entryId = none

structure Trimmed (old : List Entry) (e : Entry) (bound : Nat) (left : List Entry) : Prop where
  newest : left <:+ old ++ [e]
  length : left.length = min (old.length + 1) (max bound 1)
  last : left.getLast? = some e

variable {name g : String} {Q Q' : Queue} {es : List Entry}

theorem regular_empty (name : String) : Regular name .empty := ⟨.nil, nofun, nofun, nofun⟩

theorem Pushed.regular {e : Entry} {dropped : Nat} (pushed : Pushed Q e dropped Q')
    (regular : Regular name Q) (own : e.envelope.service = name ∧ e.envelope.entryId = none) :
    Q'.entries ≠ [] ∧ Regular name Q' := by
  have sublist : Q'.entries.Sublist (Q.entries ++ [e]) := pushed.entries ▸ List.drop_sublist _ _
  have old (a : Entry) (ha : a ∈ Q'.entries) : a ∈ Q.entries ∨ a = e := by
    simpa using sublist.subset ha
  refine ⟨fun hnil => ?_, ?_, fun a ha => ?_, fun g c hc => ?_, fun a ha => ?_⟩
  · have hlen := congrArg List.length (pushed.entries ▸ hnil)
    have hle := pushed.dropped_le
    simp only [List.length_drop, List.length_append, List.length_singleton, List.length_nil] at hlen
    omega
  · exact (regular.ascending.snoc regular.le_lastId pushed.lt_id).sublist sublist
  · rw [pushed.lastId]
    rcases old a ha with ha | rfl
    · exact EntryId.le_of_lt (EntryId.lt_of_le_of_lt (regular.le_lastId a ha) pushed.lt_id)
    · exact EntryId.le_refl _
  · rw [pushed.groups] at hc
    rw [pushed.lastId]
    exact EntryId.le_of_lt (EntryId.lt_of_le_of_lt (regular.cursors g c hc) pushed.lt_id)
  · rcases old a ha with ha | rfl
    · exact regular.stored a ha
    · exact own

theorem Regular.createGroup (regular : Regular name Q) (g : String) :
    Regular name (Q.createGroup g) := by
  refine ⟨?_, ?_, fun g' c hc => ?_, ?_⟩
  · exact Q.entries_createGroup g ▸ regular.ascending
  · exact Q.entries_createGroup g ▸ Q.lastId_createGroup g ▸ regular.le_lastId
  · rw [Q.lastId_createGroup]
    rw [Q.find?_createGroup] at hc
    split at hc
    · cases hg : Q.groups.find? g with
      | none =>
        rw [hg] at hc
        obtain rfl := Option.some.inj hc
        exact EntryId.le_refl _
      | some c' =>
        rw [hg] at hc
        exact regular.cursors g c (hg.trans hc)
    · exact regular.cursors g' c hc
  · exact Q.entries_createGroup g ▸ regular.stored

theorem Handed.regular (handed : Handed g Q es Q') (regular : Regular name Q) :
    Regular name Q' := by
  refine ⟨handed.entries ▸ regular.ascending, ?_, fun g' c hc => ?_, handed.entries ▸ regular.stored⟩
  · exact handed.entries ▸ handed.lastId ▸ regular.le_lastId
  · rw [handed.lastId]
    by_cases hg : g' = g
    · obtain ⟨before, after, hbefore, hafter, -, -, same | ⟨e, he, heq⟩⟩ := handed.cursor
      all_goals obtain rfl := Option.some.inj (hafter.symm.trans (hg ▸ hc))
      · exact same ▸ regular.cursors g before hbefore
      · exact heq ▸ regular.le_lastId e he
    · exact regular.cursors g' c (handed.others g' hg ▸ hc)

theorem trimmed_push (Q : Queue) (now : Nat) (e : Envelope) (bound : Nat) :
    Trimmed Q.entries ⟨(Q.push now e (some (max bound 1))).1, e⟩ bound
      (Q.push now e (some (max bound 1))).2.entries := by
  have hone : 1 ≤ max bound 1 := Nat.le_max_right bound 1
  generalize hid : (Q.push now e (some (max bound 1))).1 = id
  have left : (Q.push now e (some (max bound 1))).2.entries =
      (Q.entries ++ [(⟨id, e⟩ : Entry)]).drop (Q.entries.length + 1 - max bound 1) := by
    rw [← hid]
    simp [push]
  rw [left]
  refine ⟨List.drop_suffix _ _, ?_, ?_⟩
  · rw [List.length_drop, List.length_append, List.length_singleton]
    omega
  · rw [List.getLast?_drop, List.length_append, List.length_singleton, if_neg (by omega)]
    simp

end Queue

open Queue (Regular Trimmed)

theorem Deed.named_of_appended {q : String} {d : Deed} {id : String} {e : Envelope}
    (h : d.appended q = [(id, e)]) : e.service = q ∧ e.entryId = none := by
  unfold Deed.appended at h
  split at h
  · split at h
    · cases h
      exact ⟨rfl, rfl⟩
    · cases h
  · split at h
    · cases h
      exact ⟨rfl, rfl⟩
    · cases h
  · cases h

def Stands (q : String) (Q : Option Queue) : Prop :=
  ∀ Q₀, Q = some Q₀ → Q₀.entries ≠ [] ∧ Regular q Q₀

theorem Stands.regular {q : String} {Q : Option Queue} (stands : Stands q Q) :
    Regular q (Q.getD .empty) := by
  cases Q with
  | none => exact Queue.regular_empty q
  | some Q => exact (stands Q rfl).2

theorem QueueChange.stands {q : String} {now : Moment} {d : Deed} {Q Q' : Option Queue}
    (change : QueueChange q now d Q Q') (stands : Stands q Q) : Stands q Q' := by
  intro Q₁ hQ₁
  cases change with
  | idle => exact stands Q₁ hQ₁
  | deleted => cases hQ₁
  | pushed _ e n bound _ shows =>
    obtain rfl := Option.some.inj hQ₁
    have pushed := Queue.push_pushed (Q.getD .empty) now.wall.millis e bound
    exact pushed.regular stands.regular (Deed.named_of_appended shows.appended)
  | created Q g deed =>
    obtain rfl := Option.some.inj hQ₁
    obtain ⟨occupied, regular⟩ := stands Q rfl
    exact ⟨Q.entries_createGroup g ▸ occupied, regular.createGroup g⟩
  | taken Q Q' g es reads taken shows =>
    obtain rfl := Option.some.inj hQ₁
    obtain ⟨occupied, regular⟩ := stands Q rfl
    rcases taken.handed regular.ascending with ⟨-, rfl⟩ | handed
    · exact ⟨occupied, regular⟩
    · exact ⟨handed.entries ▸ occupied, handed.regular regular⟩

structure Wellformed (h : Hub) : Prop where
  queues : ∀ q Q, h.queues.find? q = some Q → Q.entries ≠ [] ∧ Regular q Q
  lists : ∀ key l, h.lists.find? key = some l → l.values ≠ []
  hashes : ∀ key fields, h.hashes.find? key = some fields → fields.isEmpty = false

theorem lists_pushReply {h : Hub} (lists : ∀ key l, h.lists.find? key = some l → l.values ≠ [])
    (now : Moment) (k : String) (v : Bytes) (ttl : Duration) :
    ∀ key l, (h.pushReply now k v ttl).lists.find? key = some l → l.values ≠ [] := by
  intro key l hl
  unfold pushReply at hl
  rw [Table.find?_set] at hl
  split at hl
  · obtain rfl := Option.some.inj hl
    exact List.append_ne_nil_of_right_ne_nil _ (List.cons_ne_nil v [])
  · exact lists key l hl

theorem lists_popReply {h : Hub} (lists : ∀ key l, h.lists.find? key = some l → l.values ≠ [])
    (now : Moment) (k : String) :
    ∀ key l, (h.popReply now k).2.lists.find? key = some l → l.values ≠ [] := by
  intro key l hl
  have erased (hl : (h.lists.erase k).find? key = some l) : l.values ≠ [] := by
    rw [Table.find?_erase] at hl
    split at hl
    · cases hl
    · exact lists key l hl
  unfold popReply at hl
  split at hl
  · exact erased hl
  · exact erased hl
  · exact erased hl
  · rw [Table.find?_set] at hl
    split at hl
    · obtain rfl := Option.some.inj hl
      exact List.cons_ne_nil _ _
    · exact lists key l hl

theorem hashes_hashSet {h : Hub}
    (hashes : ∀ key fields, h.hashes.find? key = some fields → fields.isEmpty = false)
    (k f : String) (v : Bytes) :
    ∀ key fields, (h.hashSet k f v).hashes.find? key = some fields → fields.isEmpty = false := by
  intro key fields hfields
  unfold hashSet at hfields
  rw [Table.find?_set] at hfields
  split at hfields
  · obtain rfl := Option.some.inj hfields
    rfl
  · exact hashes key fields hfields

theorem hashes_hashTake {h : Hub}
    (hashes : ∀ key fields, h.hashes.find? key = some fields → fields.isEmpty = false)
    (k f : String) :
    ∀ key fields, (h.hashTake k f).2.hashes.find? key = some fields → fields.isEmpty = false := by
  intro key fields hfields
  cases there : h.hashes.find? k with
  | none =>
    simp only [hashTake, there] at hfields
    exact hashes key fields hfields
  | some before =>
    simp only [hashTake, there] at hfields
    by_cases hempty : (before.erase f).isEmpty = true
    · rw [if_pos hempty, Table.find?_erase] at hfields
      split at hfields
      · cases hfields
      · exact hashes key fields hfields
    · rw [if_neg hempty, Table.find?_set] at hfields
      split at hfields
      · obtain rfl := Option.some.inj hfields
        exact Bool.not_eq_true _ ▸ hempty
      · exact hashes key fields hfields

theorem wellformed_empty : Wellformed empty := ⟨nofun, nofun, nofun⟩

theorem Wellformed.serve {h h' : Hub} {now : Moment} {deadline : Nat} {c : Call}
    {r : Except Error c.Value} (wf : Wellformed h) (hs : h.serve now deadline c = some (r, h')) :
    Wellformed h' where
  queues q := (queueChange_of_does (does_of_serve hs) q).stands (wf.queues q)
  lists := by
    cases c with
    | pushReply key value ttl =>
      obtain ⟨-, rfl⟩ := Prod.mk.inj (Option.some.inj hs)
      exact lists_pushReply wf.lists now key value ttl
    | popReply key timeout =>
      have after := lists_popReply wf.lists now key
      simp only [Hub.serve] at hs
      generalize h.popReply now key = p at hs after
      obtain ⟨_ | v, h₁⟩ := p
      · by_cases due : deadline ≤ now.clock
        · simp only [due, if_true] at hs
          obtain ⟨-, rfl⟩ := Prod.mk.inj (Option.some.inj hs)
          exact after
        · simp [due] at hs
      · obtain ⟨-, rfl⟩ := Prod.mk.inj (Option.some.inj hs)
        exact after
    | _ => exact lists_of_serve hs (by intros; simp) (by intros; simp) ▸ wf.lists
  hashes := by
    cases c with
    | hashSet key field value =>
      obtain ⟨-, rfl⟩ := Prod.mk.inj (Option.some.inj hs)
      exact hashes_hashSet wf.hashes key field value
    | hashTake key field | hashDelete key field =>
      obtain ⟨-, rfl⟩ := Prod.mk.inj (Option.some.inj hs)
      exact hashes_hashTake wf.hashes key field
    | _ => exact hashes_of_serve hs rfl ▸ wf.hashes

theorem Wellformed.does {h h' : Hub} {now : Moment} {a : Action} {r : a.Result} (wf : Wellformed h)
    (hd : Does h now a r h') : Wellformed h' := by
  cases a with
  | call c =>
    rcases hd.cases with ⟨deadline, hs⟩ | ⟨e, -, -, rfl⟩
    · exact wf.serve hs
    · exact wf
  | delete queue =>
    have queues := fun q => (queueChange_of_does hd q).stands (wf.queues q)
    obtain ⟨-, rfl⟩ : _ = r ∧ { h with queues := h.queues.erase queue } = h' := Prod.mk.inj hd
    exact ⟨queues, wf.lists, wf.hashes⟩

theorem does_of_look {h h' : Hub} {now : Moment} {c : Call} (vain : h.look now c = (none, h')) :
    ∃ v, Does h now (.call c) (.ok v) h' := by
  obtain ⟨v, hv⟩ := Option.ne_none_iff_exists'.mp (waits_of_look vain)
  have hs := serve_eq_look h now 0 c
  simp only [vain, hv, Nat.zero_le, if_true, Option.map_some] at hs
  exact ⟨v, does_of_serve hs⟩

theorem Reachable.wellformed {h : Hub} (reachable : Reachable h) : Wellformed h := by
  induction reachable with
  | empty => exact wellformed_empty
  | done _ does ih => exact ih.does does
  | looked _ vain ih =>
    obtain ⟨v, does⟩ := does_of_look vain
    exact ih.does does

theorem Run.reachable {h : Hub} {ts : List Transition} (run : Run empty ts h) : Reachable h := by
  induction run with
  | start => exact .empty
  | step t _ does ih => exact .done ih does

theorem find?_append (h : Hub) (now : Moment) (q : String) (e : Envelope) (n : Option Nat) :
    (h.append now q e n).2.queues.find? q =
      some ((h.queueAt q).push now.wall.millis (e.stored q) n).2 := by
  have hset : (h.append now q e n).2.queues.find? q = if q = q then
      some ((h.queueAt q).push now.wall.millis (e.stored q) n).2 else _ := Table.find?_set ..
  rw [hset, if_pos rfl]

theorem trimmed_of_append {h h' : Hub} {now : Moment} {q id : String} {e : Envelope} {bound : Nat}
    (hd : Does h now (.call (.append q e bound)) (.ok id) h') :
    ∃ i : EntryId, id = i.text ∧ ∃ Q, h'.queues.find? q = some Q ∧
      Trimmed (h.queueAt q).entries ⟨i, e.stored q⟩ bound Q.entries := by
  rcases hd.cases with ⟨deadline, hs⟩ | ⟨_, -, heq, -⟩
  · have hid : Except.ok (h.append now q e (some (max bound 1))).1.text = Except.ok (ε := Error) id :=
      (Prod.mk.inj (Option.some.inj hs)).1
    have hafter : (h.append now q e (some (max bound 1))).2 = h' :=
      (Prod.mk.inj (Option.some.inj hs)).2
    exact ⟨_, (Except.ok.inj hid).symm, _, hafter ▸ find?_append h now q e _,
      (h.queueAt q).trimmed_push now.wall.millis (e.stored q) bound⟩
  · cases heq

theorem entries_of_placeholder {h h' : Hub} {now : Moment} {q id : String}
    (hd : Does h now (.call (.appendPlaceholder q)) (.ok id) h') :
    ∃ i : EntryId, id = i.text ∧ ∃ Q, h'.queues.find? q = some Q ∧
      Q.entries = (h.queueAt q).entries ++ [⟨i, .placeholder q⟩] := by
  rcases hd.cases with ⟨deadline, hs⟩ | ⟨_, -, heq, -⟩
  · have hid : Except.ok (h.append now q (.placeholder q) none).1.text = Except.ok (ε := Error) id :=
      (Prod.mk.inj (Option.some.inj hs)).1
    have hafter : (h.append now q (.placeholder q) none).2 = h' :=
      (Prod.mk.inj (Option.some.inj hs)).2
    exact ⟨_, (Except.ok.inj hid).symm, _, hafter ▸ find?_append h now q (.placeholder q) none, rfl⟩
  · cases heq

structure Representation (h : Hub) : Prop where
  wellformed : Wellformed h
  append : ∀ now q e bound id h', Does h now (.call (.append q e bound)) (.ok id) h' →
    ∃ i : EntryId, id = i.text ∧ ∃ Q, h'.queues.find? q = some Q ∧
      Trimmed (h.queueAt q).entries ⟨i, e.stored q⟩ bound Q.entries
  placeholder : ∀ now q id h', Does h now (.call (.appendPlaceholder q)) (.ok id) h' →
    ∃ i : EntryId, id = i.text ∧ ∃ Q, h'.queues.find? q = some Q ∧
      Q.entries = (h.queueAt q).entries ++ [⟨i, .placeholder q⟩]

theorem Reachable.representation {h : Hub} (reachable : Reachable h) : Representation h where
  wellformed := reachable.wellformed
  append _ _ _ _ _ _ hd := trimmed_of_append hd
  placeholder _ _ _ _ hd := entries_of_placeholder hd

/-- Entries are trimmed under changing bounds and a clock that goes back, a reply expires, and the
hash loses its only field. -/
def tidied : List (Moment × Action) :=
  [(⟨⟨1000000⟩, 9⟩, .call (.hashTake "k" "f")),
    (⟨⟨1000000⟩, 8⟩, .call (.append "q" (.immediate "x" [3]) 0)),
    (⟨⟨1000000⟩, 7⟩, .call (.readGroup "g" "c" ["q"] 1 ⟨0⟩)),
    (⟨⟨1000000⟩, 6⟩, .call (.appendPlaceholder "q")),
    (⟨⟨1000000⟩, 5⟩, .call (.append "q" (.immediate "q" [2]) 2)),
    (⟨⟨2000000⟩, 4⟩, .call (.createGroup "q" "g")),
    (⟨⟨2000000⟩, 3⟩, .call (.append "q" (.immediate "q" [1]) 5)),
    (⟨⟨2000000⟩, 2⟩, .call (.appendPlaceholder "q")),
    (⟨⟨2000000⟩, 1⟩, .call (.hashSet "k" "f" [])),
    (⟨⟨2000000⟩, 0⟩, .call (.pushReply "r" [7] ⟨3⟩))]

/-- A caller whose reply came too early looks once more, in vain. -/
theorem representation_tidied :
    ((enact empty tidied).2.look ⟨⟨1000000⟩, 10⟩ (.popReply "r" ⟨99⟩)).1 = none ∧
      Representation ((enact empty tidied).2.look ⟨⟨1000000⟩, 10⟩ (.popReply "r" ⟨99⟩)).2 := by
  have vain : ((enact empty tidied).2.look ⟨⟨1000000⟩, 10⟩ (.popReply "r" ⟨99⟩)).1 = none := by
    decide +kernel
  refine ⟨vain, Reachable.representation ?_⟩
  exact .looked (run_enact empty tidied).reachable (Prod.ext vain rfl)

end BrokeredCalls.Hub
