import BrokeredCalls.Proofs.Hub.Wellformed
import BrokeredCalls.Proofs.Redis.Enqueueing
import BrokeredCalls.Proofs.Text.Decimal
import BrokeredCalls.Proofs.Text.Keys
import BrokeredCalls.Proofs.Text.Utf8

/-!
An entry comes out of a stream as it comes out of the memory store: whatever was added to a queue is
handed to a reader under the name of that queue and the id it was given, and is otherwise what it was.
A server answers a group read with streams of rows, each row an id and fields in turn.
-/

namespace BrokeredCalls

theorem Utf8.decode?_encode (s : String) : Utf8.decode? (Utf8.encode s) = some s := by
  simp [decode?, decodeLossy_encode]

inductive Addition where
  | entry (e : Envelope) (maxLength : Nat)
  | placeholder
  deriving DecidableEq, Repr

namespace Addition

def deed (queue id : String) : Addition → Hub.Deed
  | entry e maxLength => ⟨.call (.append queue e maxLength), .ok id⟩
  | placeholder => ⟨.call (.appendPlaceholder queue), .ok id⟩

def envelope (queue : String) : Addition → Envelope
  | entry e _ => e
  | placeholder => .placeholder queue

def delivery (queue id : String) (a : Addition) : Delivery :=
  ⟨queue, id, ((a.envelope queue).stored queue).withEntryId id⟩

def fields : Addition → List Redis.Field
  | entry e _ => Redis.Entry.fields e
  | placeholder => Redis.Entry.placeholderFields

def maxLength : Addition → Option Nat
  | entry _ maxLength => some maxLength
  | placeholder => none

def serve (queue : String) :
    Addition → StateT Redis.Session (Program Redis.Wire.interface) (Except Error String)
  | entry e maxLength => Redis.Session.serve (.append queue e maxLength)
  | placeholder => Redis.Session.serve (.appendPlaceholder queue)

end Addition

namespace Hub

variable {h h' h'' : Hub} {now : Moment} {q id : String} {a : Addition} {ts : List Transition}

theorem append_of_addition (hd : Does h now (a.deed q id).1 (a.deed q id).2 h') :
    ∃ n, (∀ k, n = some k → 1 ≤ k) ∧ id = (h.append now q (a.envelope q) n).1.text ∧
      h' = (h.append now q (a.envelope q) n).2 := by
  cases a with
  | entry e maxLength =>
    rcases hd.cases with ⟨deadline, hs⟩ | ⟨_, -, heq, -⟩
    · obtain ⟨hid, hafter⟩ := Prod.mk.inj (Option.some.inj hs)
      refine ⟨some (max maxLength 1), fun k hk => ?_, (Except.ok.inj hid).symm, hafter.symm⟩
      cases hk
      exact Nat.le_max_right maxLength 1
    · cases heq
  | placeholder =>
    rcases hd.cases with ⟨deadline, hs⟩ | ⟨_, -, heq, -⟩
    · obtain ⟨hid, hafter⟩ := Prod.mk.inj (Option.some.inj hs)
      exact ⟨none, nofun, (Except.ok.inj hid).symm, hafter.symm⟩
    · cases heq

/-- The id is spent on the envelope: no other entry of the queue has it or will. -/
def Spent (q : String) (i : EntryId) (e : Envelope) (h : Hub) : Prop :=
  ∃ Q, h.queues.find? q = some Q ∧ i ≤ Q.lastId ∧ ∀ a ∈ Q.entries, a.id = i → a.envelope = e

theorem Pushed.spent {i : EntryId} {e : Envelope} {Q Q' : Queue} {new : Entry} {dropped : Nat}
    (pushed : Queue.Pushed Q new dropped Q') (le : i ≤ Q.lastId)
    (only : ∀ a ∈ Q.entries, a.id = i → a.envelope = e) :
    i ≤ Q'.lastId ∧ ∀ a ∈ Q'.entries, a.id = i → a.envelope = e := by
  have lt := EntryId.lt_of_le_of_lt le pushed.lt_id
  refine ⟨pushed.lastId ▸ EntryId.le_of_lt lt, fun a ha hid => ?_⟩
  rcases List.mem_append.mp (List.mem_of_mem_drop (pushed.entries ▸ ha)) with ha | ha
  · exact only a ha hid
  · rw [List.mem_singleton.mp ha] at hid
    rw [hid] at lt
    exact absurd lt (EntryId.lt_irrefl i)

theorem Spent.does {i : EntryId} {e : Envelope} {act : Action} {r : act.Result}
    (spent : Spent q i e h) (wf : Wellformed h) (hd : Does h now act r h') (kept : act ≠ .delete q) :
    Spent q i e h' ∧ ∀ g, ∀ d ∈ Deed.delivered g q ⟨act, r⟩,
      d.id = i.text → d = ⟨q, i.text, e.withEntryId i.text⟩ := by
  obtain ⟨Q, there, le, only⟩ := spent
  have change := queueChange_of_does hd q
  rw [there] at change
  generalize hafter : h'.queues.find? q = after at change
  have quiet (g : String) (none : Deed.delivered g q ⟨act, r⟩ = []) :
      ∀ d ∈ Deed.delivered g q ⟨act, r⟩, d.id = i.text → d = ⟨q, i.text, e.withEntryId i.text⟩ := by
    rw [none]
    exact nofun
  cases change with
  | idle _ shows => exact ⟨⟨Q, hafter, le, only⟩, fun g => quiet g (shows.delivered g)⟩
  | deleted _ gone => exact absurd gone kept
  | pushed _ new n bound _ shows =>
    have pushed := Queue.push_pushed Q now.wall.millis new bound
    exact ⟨⟨_, hafter, Pushed.spent pushed le only⟩, fun g => quiet g (shows.delivered g)⟩
  | created _ g deed =>
    refine ⟨⟨_, hafter, Q.lastId_createGroup g ▸ le, Q.entries_createGroup g ▸ only⟩, fun g' => ?_⟩
    cases deed
    exact nofun
  | taken _ Q' g es reads taken shows =>
    have same := taken.reread
    refine ⟨⟨Q', hafter, same.lastId ▸ le, same.entries ▸ only⟩, fun g' d hd hid => ?_⟩
    rw [shows.delivered g'] at hd
    split at hd
    · obtain ⟨entry, hentry, rfl⟩ := List.mem_map.mp hd
      have ascending := (wf.queues q Q there).2.ascending
      rcases taken.handed ascending with ⟨rfl, -⟩ | handed
      · cases hentry
      · obtain ⟨c, -, hc, -⟩ := handed.cursor
        have hmem := (handed.lt_of_mem hc hentry).1
        have hi := EntryId.text_injective hid
        rw [Hub.Entry.delivery, only entry hmem hi, hi]
    · cases hd

theorem Reachable.delivered_of_addition (reachable : Reachable h)
    (hd : Does h now (a.deed q id).1 (a.deed q id).2 h') (run : Run h' ts h'')
    (kept : ∀ t ∈ ts, t.action ≠ .delete q) {g : String} {d : Delivery}
    (given : d ∈ deliveredTo g q (deeds ts)) (hid : d.id = id) : d = a.delivery q id := by
  obtain ⟨n, bound, rfl, hafter⟩ := append_of_addition hd
  have regular := Stands.regular (reachable.wellformed.queues q)
  have pushed := Queue.push_pushed (h.queueAt q) now.wall.millis
    ((a.envelope q).stored q) bound
  have spent : Spent q (h.append now q (a.envelope q) n).1 ((a.envelope q).stored q) h' := by
    refine ⟨_, hafter ▸ find?_append h now q (a.envelope q) n, EntryId.le_refl _, fun b hb hb' => ?_⟩
    rcases List.mem_append.mp (List.mem_of_mem_drop (pushed.entries ▸ hb)) with hb | hb
    · have hlt := EntryId.lt_of_le_of_lt (regular.le_lastId b hb) pushed.lt_id
      rw [hb'] at hlt
      exact absurd hlt (EntryId.lt_irrefl _)
    · rw [List.mem_singleton.mp hb]
  have all : Reachable h'' ∧ Spent q (h.append now q (a.envelope q) n).1 ((a.envelope q).stored q) h'' ∧
      ∀ d ∈ deliveredTo g q (deeds ts), d.id = (h.append now q (a.envelope q) n).1.text →
        d = a.delivery q (h.append now q (a.envelope q) n).1.text := by
    clear given
    induction run with
    | start => exact ⟨.done reachable hd, spent, nofun⟩
    | step t earlier does ih =>
      obtain ⟨reach, spent, before⟩ := ih fun u hu => kept u (List.mem_cons_of_mem _ hu)
      obtain ⟨after, given⟩ := spent.does reach.wellformed does (kept t List.mem_cons_self)
      refine ⟨.done reach does, after, fun d hd => ?_⟩
      rcases List.mem_append.mp hd with hd | hd
      · exact before d hd
      · exact given g d hd
  exact all.2.2 d given hid

theorem Pushed.fresh {Q Q' : Queue} {new : Entry} {dropped count : Nat} {cursor : EntryId}
    (pushed : Queue.Pushed Q new dropped Q') (read : ∀ e ∈ Q.entries, e.id ≤ cursor)
    (lt : cursor < new.id) (pos : 1 ≤ count) : Q'.fresh cursor count = [new] := by
  have old : (Q.entries.drop dropped).filter (fun e => cursor < e.id) = [] := by
    refine List.filter_eq_nil_iff.mpr fun e he => ?_
    simpa using EntryId.not_lt.mpr (read e (List.mem_of_mem_drop he))
  rw [Queue.fresh, pushed.entries, List.drop_append_of_le_length pushed.dropped_le,
    List.filter_append, old, List.nil_append, List.filter_cons_of_pos (by simpa using lt),
    List.filter_nil, List.take_of_length_le pos]

theorem serve_readGroup_one {g : String} {Q : Queue} {cursor : EntryId} {e : Entry} {es : List Entry}
    {count : Nat} (there : h.queues.find? q = some Q) (hcursor : Q.groups.find? g = some cursor)
    (fresh : Q.fresh cursor (max count 1) = e :: es) (now : Moment) (deadline : Nat)
    (consumer : String) (block : Duration) :
    ∃ h', h.serve now deadline (.readGroup g consumer [q] count block) =
      some (.ok ((e :: es).map (Entry.delivery q)), h') := by
  obtain ⟨Q', htake⟩ := exists_take? hcursor (max count 1)
  have carried : h.carries q g = true := carries_iff.mpr ⟨Q, cursor, there, hcursor⟩
  have taken : h.read g [q] count = .ok (takeAll g (max count 1) [q] h) := by
    simp [Hub.read, carried]
  refine ⟨{ h with queues := h.queues.set q Q' }, ?_⟩
  simp only [Hub.serve, taken, takeAll, there, Option.bind_some, htake, fresh, List.append_nil,
    List.map_cons]

theorem Reachable.read_addition (reachable : Reachable h) {g : String} (drained : h.Drained q g)
    (hd : Does h now (a.deed q id).1 (a.deed q id).2 h') (later : Moment) (deadline count : Nat)
    (consumer : String) (block : Duration) :
    ∃ h'', h'.serve later deadline (.readGroup g consumer [q] count block) =
      some (.ok [a.delivery q id], h'') := by
  obtain ⟨n, bound, rfl, rfl⟩ := append_of_addition hd
  obtain ⟨Q, cursor, there, hcursor, read⟩ := drained
  obtain rfl : h.queueAt q = Q := by simp [queueAt, there]
  have pushed := Queue.push_pushed (h.queueAt q) now.wall.millis
    ((a.envelope q).stored q) bound
  have le := (reachable.wellformed.queues q _ there).2.cursors g cursor hcursor
  have fresh := Pushed.fresh pushed read (EntryId.lt_of_le_of_lt le pushed.lt_id)
    (Nat.le_max_right count 1)
  have after := find?_append h now q (a.envelope q) n
  have hcursor' := pushed.groups ▸ hcursor
  exact serve_readGroup_one after hcursor' fresh later deadline consumer block

end Hub

namespace Redis

open Entry (dataField timeField placeholderField)

def received (fs : List Field) : List (String × Value) := fs.map fun f => (f.1, .bulk f.2)

theorem lookUp_cons (name : String) (f : String × Value) (fs : List (String × Value)) :
    Entry.lookUp name (f :: fs) = if f.1 = name then some f.2 else Entry.lookUp name fs := by
  unfold Entry.lookUp
  by_cases h : f.1 = name <;> simp [h]

theorem lookUp_nil (name : String) : Entry.lookUp name [] = none := rfl

theorem fields_distinct :
    dataField ≠ placeholderField ∧ timeField ≠ placeholderField ∧ dataField ≠ timeField := by
  decide

theorem text_encode (s : String) : Reading.text (.bulk (Utf8.encode s)) = .ok s := by
  simp [Reading.text, Utf8.decode?_encode]

theorem delivery_fields (queue id : String) (e : Envelope) :
    Entry.delivery queue id (received (Entry.fields e)) =
      ⟨queue, id, (e.stored queue).withEntryId id⟩ := by
  obtain ⟨service, payload, fireAt, entryId⟩ := e
  obtain ⟨data, time, differ⟩ := fields_distinct
  cases fireAt with
  | none =>
    show Entry.delivery queue id [(dataField, .bulk payload)] = _
    simp [Entry.delivery, Entry.envelope?, Entry.field?, lookUp_cons, lookUp_nil, data, differ,
      Reading.bytes, Except.toOption, Envelope.stored]
  | some t =>
    show Entry.delivery queue id
      [(dataField, .bulk payload), (timeField, .bulk (Utf8.encode (Decimal.ofInt64 t)))] = _
    simp [Entry.delivery, Entry.envelope?, Entry.field?, lookUp_cons, lookUp_nil, data, time, differ,
      Reading.bytes, text_encode, Decimal.int64?_ofInt64, Except.toOption, Envelope.stored]

theorem delivery_placeholderFields (queue id : String) :
    Entry.delivery queue id (received Entry.placeholderFields) =
      ⟨queue, id, (Envelope.placeholder queue).withEntryId id⟩ := by
  show Entry.delivery queue id [(placeholderField, .bulk (Utf8.encode "1"))] = _
  simp [Entry.delivery, lookUp_cons]

theorem delivery_addition (queue id : String) (a : Addition) :
    Entry.delivery queue id (received a.fields) = a.delivery queue id := by
  cases a with
  | entry e maxLength => exact delivery_fields queue id e
  | placeholder => exact delivery_placeholderFields queue id

abbrev Row := String × List Field

namespace Answer

def text (s : String) : Value := .bulk (Utf8.encode s)

def fields (fs : List Field) : Value := .array (fs.flatMap fun f => [text f.1, .bulk f.2])

def row (r : Row) : Value := .array [text r.1, fields r.2]

def stream (s : String × List Row) : Value := .array [text s.1, .array (s.2.map row)]

def streams (ss : List (String × List Row)) : Value := .array (ss.map stream)

end Answer

/-- Fields under their names; a name that comes again has its last value. -/
def collected (fs : List Field) : List (String × Value) :=
  fs.foldl (fun acc f => Reading.setPair f.1 (.bulk f.2) acc) []

theorem setPair_new {α : Type} {key : String} {a : α} {acc : List (String × α)}
    (new : key ∉ acc.map (·.1)) : Reading.setPair key a acc = acc ++ [(key, a)] := by
  induction acc with
  | nil => rfl
  | cons p acc ih =>
    simp only [List.map_cons, List.mem_cons, not_or] at new
    obtain ⟨hne, hnot⟩ := new
    rw [Reading.setPair, if_neg (Ne.symm hne), ih hnot]
    rfl

theorem collected_of_nodup {fs : List Field} (nodup : (fs.map (·.1)).Nodup) :
    collected fs = received fs := by
  have fold (acc : List (String × Value)) (apart : ∀ f ∈ fs, f.1 ∉ acc.map (·.1)) :
      fs.foldl (fun acc f => Reading.setPair f.1 (.bulk f.2) acc) acc = acc ++ received fs := by
    induction fs generalizing acc with
    | nil => simp [received]
    | cons f fs ih =>
      obtain ⟨hnew, hnodup⟩ := List.nodup_cons.mp nodup
      rw [List.foldl_cons, setPair_new (apart f List.mem_cons_self), ih hnodup]
      · simp [received]
      · intro f' hf' hmem
        rw [List.map_append, List.mem_append] at hmem
        rcases hmem with hmem | hmem
        · exact apart f' (List.mem_cons_of_mem f hf') hmem
        · exact hnew (List.mem_singleton.mp hmem ▸ List.mem_map_of_mem hf')
  exact fold [] (by simp)

theorem nodup_addition (a : Addition) : (a.fields.map (·.1)).Nodup := by
  cases a with
  | placeholder => simp [Addition.fields, Entry.placeholderFields]
  | entry e maxLength =>
    cases ht : e.fireAt <;> simp [Addition.fields, Entry.fields, ht, fields_distinct]

theorem items_map {α β : Type} {read : Reading α} {f : β → Value} {g : β → α}
    (reads : ∀ b, read (f b) = .ok (g b)) (bs : List β) :
    Reading.items read (bs.map f) = .ok (bs.map g) := by
  induction bs with
  | nil => rfl
  | cons b bs ih =>
    rw [List.map_cons, Reading.items, reads, ih]
    rfl

theorem pairs_fields (fs : List Field) (acc : List (String × Value)) :
    Reading.pairs Reading.any acc (fs.flatMap fun f => [Answer.text f.1, .bulk f.2]) =
      .ok (fs.foldl (fun acc f => Reading.setPair f.1 (.bulk f.2) acc) acc) := by
  induction fs generalizing acc with
  | nil => rfl
  | cons f fs ih =>
    have key : Reading.text (Answer.text f.1) = .ok f.1 := text_encode f.1
    show Reading.pairs Reading.any acc (Answer.text f.1 :: .bulk f.2 :: _) = _
    rw [Reading.pairs, key]
    exact ih _

theorem map_fields (fs : List Field) :
    Reading.map Reading.any (Answer.fields fs) = .ok (collected fs) := by
  have even : (fs.flatMap fun f => [Answer.text f.1, Value.bulk f.2]).length % 2 = 0 := by
    induction fs with
    | nil => rfl
    | cons f fs ih =>
      rw [List.flatMap_cons, List.length_append]
      exact (Nat.add_mod_left 2 _).trans ih
  rw [Answer.fields, Reading.map, if_pos even]
  exact pairs_fields fs []

theorem map_entry {α : Type} {read : Reading α} {v : Value} {a : α} (name : String)
    (reads : read v = .ok a) : Reading.map read (.array [Answer.text name, v]) = .ok [(name, a)] := by
  have key : Reading.text (Answer.text name) = .ok name := text_encode name
  rw [Reading.map, if_pos (by simp), Reading.pairs, key]
  show (do let a ← read v; Reading.pairs read (Reading.setPair name a []) []) = _
  rw [reads]
  rfl

theorem flatten_singletons {α β : Type} (f : β → α) (bs : List β) :
    (bs.map fun b => [f b]).flatten = bs.map f := List.map_eq_flatMap.symm

theorem batch_streams (ss : List (String × List Row)) :
    Entry.batch (Answer.streams ss) = .ok (ss.flatMap fun s =>
      s.2.map fun r => Entry.delivery s.1 r.1 (collected r.2)) := by
  have row (r : Row) : Reading.map (Reading.map Reading.any) (Answer.row r) =
      .ok [(r.1, collected r.2)] := map_entry r.1 (map_fields r.2)
  have stream (s : String × List Row) :
      Reading.map (Reading.list (Reading.map (Reading.map Reading.any))) (Answer.stream s) =
        .ok [(s.1, s.2.map fun r => [(r.1, collected r.2)])] :=
    map_entry s.1 (items_map row s.2)
  have all : Reading.list (Reading.map (Reading.list (Reading.map (Reading.map Reading.any))))
      (Answer.streams ss) = .ok (ss.map fun s => [(s.1, s.2.map fun r => [(r.1, collected r.2)])]) :=
    items_map stream ss
  have batch : Entry.batch (Answer.streams ss) =
      .ok ((ss.map fun s => [(s.1, s.2.map fun r => [(r.1, collected r.2)])]).flatten.flatMap
        fun s => s.2.flatten.map fun r => Entry.delivery s.1 r.1 r.2) := by
    rw [Entry.batch, all]
    rfl
  rw [batch, flatten_singletons, List.flatMap_map]
  simp only [flatten_singletons, List.map_map, Function.comp_def]

theorem signalledIn?_eq_none {vs : List Value} (quiet : ∀ v ∈ vs, v.signalled? = none) :
    Value.signalledIn? vs = none := by
  induction vs with
  | nil => rfl
  | cons v vs ih =>
    rw [Value.signalledIn?, quiet v List.mem_cons_self]
    exact ih fun w hw => quiet w (List.mem_cons_of_mem v hw)

theorem signalled?_map {β : Type} {f : β → Value} (quiet : ∀ b, (f b).signalled? = none)
    (bs : List β) : (Value.array (bs.map f)).signalled? = none := by
  refine signalledIn?_eq_none fun v hv => ?_
  obtain ⟨b, -, rfl⟩ := List.mem_map.mp hv
  exact quiet b

theorem signalled?_pair {v w : Value} (first : v.signalled? = none) (second : w.signalled? = none) :
    (Value.array [v, w]).signalled? = none :=
  signalledIn?_eq_none (by simp [first, second])

theorem signalled?_streams (ss : List (String × List Row)) :
    (Answer.streams ss).signalled? = none := by
  have fields (fs : List Field) : (Answer.fields fs).signalled? = none := by
    refine signalledIn?_eq_none fun v hv => ?_
    obtain ⟨f, -, hv⟩ := List.mem_flatMap.mp hv
    rcases List.mem_cons.mp hv with rfl | hv
    · rfl
    · rw [List.mem_singleton.mp hv]
      rfl
  have row (r : Row) : (Answer.row r).signalled? = none := signalled?_pair rfl (fields r.2)
  have stream (s : String × List Row) : (Answer.stream s).signalled? = none :=
    signalled?_pair rfl (signalled?_map row s.2)
  exact signalled?_map stream ss

def answering (c : Connection) (v : Value) : (r : Wire.Request) → Id (Wire.interface.Answer r)
  | .connect _ => .opened c
  | .exchange .. => .answers [v]

def concludeRead : Except Failure (List Delivery) → Session.Step (List Delivery)
  | .ok batch => return batch
  | .error f => match Session.missingQueue? f with
    | some queue => throw (.missingQueue queue)
    | none => do
      Session.forgetReading
      Session.orFail "XREADGROUP" (.error f)

theorem readGroup_answered {s : Session} (isOpen : s.closed = false) (c : Connection) {v : Value}
    {batch : List Delivery} (quiet : v.signalled? = none) (reads : Entry.batch v = .ok batch)
    (group consumer : String) (queues : List String) (count : Nat) (block : Duration) :
    (((Session.serve (.readGroup group consumer queues count block)).run s).run
      (answering c v)).1 = .ok batch := by
  obtain ⟨name, shared, reading, closed⟩ := s
  obtain rfl : closed = false := isOpen
  have single : (Session.single [v]).bind Entry.batch = .ok batch := by
    simp only [Session.single, quiet]
    exact reads
  have ends (s : Session) : (((concludeRead ((Session.single [v]).bind Entry.batch)).run.run s).run
      (answering c v)).1 = .ok batch := by
    rw [single]
    rfl
  cases reading with
  | none => exact ends ⟨name, shared, some c, false⟩
  | some c' => exact ends ⟨name, shared, some c', false⟩

theorem serve_addition {s : Session} (isOpen : s.closed = false) (queue : String) (a : Addition) :
    ∃ what, (a.serve queue).run s = .ask (I := Wire.interface)
      (.exchange s.shared [.addEntry queue a.maxLength a.fields] commandTimeout) fun o =>
        .done (Session.judge s.name what Reading.text o, s) := by
  have sends (what : String) : (Session.command what
      (.addEntry queue a.maxLength a.fields) Reading.text).run.run s = .ask (I := Wire.interface)
        (.exchange s.shared [.addEntry queue a.maxLength a.fields] commandTimeout) fun o =>
          .done (Session.judge s.name what Reading.text o, s) := by
    rw [Session.command_run, isOpen]
    rfl
  cases a with
  | entry e maxLength => exact ⟨_, sends ("XADD " ++ queue)⟩
  | placeholder => exact ⟨_, sends ("XADD placeholder " ++ queue)⟩

open Hub (Does Reachable Run deliveredTo deeds)

structure Carried (queue : String) (a : Addition) : Prop where
  sent : ∀ s : Session, s.closed = false → ∃ what, (a.serve queue).run s = .ask (I := Wire.interface)
    (.exchange s.shared [.addEntry queue a.maxLength a.fields] commandTimeout) fun o =>
      .done (Session.judge s.name what Reading.text o, s)
  decoded : ∀ id, Entry.delivery queue id (received a.fields) = a.delivery queue id
  given : ∀ h h' h'' now id ts g d, Reachable h → Does h now (a.deed queue id).1 (a.deed queue id).2 h' →
    Run h' ts h'' → (∀ t ∈ ts, t.action ≠ .delete queue) → d ∈ deliveredTo g queue (deeds ts) →
      d.id = id → d = a.delivery queue id
  next : ∀ h h' now id g, Reachable h → h.Drained queue g →
    Does h now (a.deed queue id).1 (a.deed queue id).2 h' →
      ∀ later deadline count consumer block, ∃ h'',
        h'.serve later deadline (.readGroup g consumer [queue] count block) =
          some (.ok [a.delivery queue id], h'')
  kind : ∀ id, (a.delivery queue id).envelope.isDeferred = (a.envelope queue).isDeferred ∧
    (a.delivery queue id).envelope.isTombstone = (a.envelope queue).isTombstone ∧
    (a.delivery queue id).envelope.isPlaceholder = (a.envelope queue).isPlaceholder

theorem carried (queue : String) (a : Addition) : Carried queue a where
  sent _ isOpen := serve_addition isOpen queue a
  decoded id := delivery_addition queue id a
  given _ _ _ _ _ _ _ _ reachable hd run kept := reachable.delivered_of_addition hd run kept
  next _ _ _ _ _ reachable drained hd := reachable.read_addition drained hd
  kind _ := ⟨rfl, rfl, rfl⟩

structure Batched (ss : List (String × List Row)) (ds : List Delivery) : Prop where
  returned : ∀ s : Session, s.closed = false → ∀ c group consumer queues count block,
    (((Session.serve (.readGroup group consumer queues count block)).run s).run
      (answering c (Answer.streams ss))).1 = .ok ds
  rows : ds.map (fun d => (d.queue, d.id)) = ss.flatMap fun s => s.2.map fun r => (s.1, r.1)
  named : ∀ d ∈ ds, d.envelope.service = d.queue ∧ d.envelope.entryId = some d.id

theorem named_delivery (queue id : String) (fs : List (String × Value)) :
    (Entry.delivery queue id fs).envelope.service = queue ∧
      (Entry.delivery queue id fs).envelope.entryId = some id := by
  refine ⟨?_, rfl⟩
  unfold Entry.delivery
  dsimp only [Envelope.withEntryId]
  split
  · rfl
  · cases he : Entry.envelope? queue fs with
    | none => rfl
    | some e =>
      unfold Entry.envelope? at he
      split at he
      · obtain ⟨t, -, ht⟩ := Option.bind_eq_some_iff.mp he
        cases ht
        rfl
      · cases he
        rfl

theorem batched (ss : List (String × List Row)) :
    Batched ss (ss.flatMap fun s => s.2.map fun r => Entry.delivery s.1 r.1 (collected r.2)) where
  returned _ isOpen c group consumer queues count block :=
    readGroup_answered isOpen c (signalled?_streams ss) (batch_streams ss) group consumer queues
      count block
  rows := by
    simp only [List.map_flatMap, List.map_map]
    rfl
  named d hd := by
    obtain ⟨s, -, hd⟩ := List.mem_flatMap.mp hd
    obtain ⟨r, -, rfl⟩ := List.mem_map.mp hd
    exact named_delivery s.1 r.1 (collected r.2)

def rowsOf (ss : List (String × List (String × Addition))) : List (String × List Row) :=
  ss.map fun s => (s.1, s.2.map fun r => (r.1, r.2.fields))

theorem batched_additions (ss : List (String × List (String × Addition))) :
    Batched (rowsOf ss) (ss.flatMap fun s => s.2.map fun r => r.2.delivery s.1 r.1) := by
  have same : ((rowsOf ss).flatMap fun s => s.2.map fun r => Entry.delivery s.1 r.1 (collected r.2)) =
      ss.flatMap fun s => s.2.map fun r => r.2.delivery s.1 r.1 := by
    simp only [rowsOf, List.flatMap_map, List.map_map, Function.comp_def,
      collected_of_nodup (nodup_addition _), delivery_addition]
  exact same ▸ batched (rowsOf ss)

/-- What is added to a queue reaches its readers alike through either transport, one delivery for each
entry, and a batch from a server holds one for each row, whatever the row holds. -/
theorem transports_agree :
    (∀ queue a, Carried queue a) ∧
      (∀ ss, Batched (rowsOf ss) (ss.flatMap fun s => s.2.map fun r => r.2.delivery s.1 r.1)) ∧
      ∀ ss, ∃ ds, Batched ss ds :=
  ⟨carried, batched_additions, fun ss => ⟨_, batched ss⟩⟩

example : Entry.delivery "init" "7-0"
    (received (Entry.fields ⟨"x", [], some Int64.minValue, some "0-1"⟩)) =
      ⟨"init", "7-0", ⟨"init", [], some Int64.minValue, some "7-0"⟩⟩ := by
  decide +kernel

end Redis
end BrokeredCalls
