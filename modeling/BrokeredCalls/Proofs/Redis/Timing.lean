import BrokeredCalls.Proofs.Network.Script
import BrokeredCalls.Proofs.Redis.Carrying
import BrokeredCalls.Proofs.Shutdown.Following

/-!
What the time field of an entry decides. A number in it is the fire time. A text that is no number makes
the entry one that is acknowledged and nothing else. Bytes that are no text at all are passed over as if
the field were absent, and the entry is called at once.
-/

namespace BrokeredCalls

namespace Node.Dispatch

variable {s : Shared} {b : BrokerId}

theorem route_placeholder {d : Delivery} (empty : d.envelope.isPlaceholder = true) :
    route s b d = pure () := by
  unfold route
  dsimp only
  rw [if_pos empty]

theorem routeAll_append (before after : List Delivery) :
    routeAll s b (before ++ after) = routeAll s b before >>= fun _ => routeAll s b after := by
  induction before with
  | nil => rfl
  | cons d before ih =>
    rw [List.cons_append, routeAll, routeAll, ih]
    exact (Program.bind_assoc ..).symm

theorem routeAll_placeholder {d : Delivery} (empty : d.envelope.isPlaceholder = true)
    (before after : List Delivery) :
    routeAll s b (before ++ d :: after) = routeAll s b (before ++ after) := by
  rw [routeAll_append, routeAll_append, routeAll, route_placeholder empty]
  rfl

theorem acknowledgeAll_append (g : String) (earlier later : List (String × List String)) :
    acknowledgeAll b g (earlier ++ later) =
      acknowledgeAll b g earlier >>= fun _ => acknowledgeAll b g later := by
  induction earlier with
  | nil => rfl
  | cons e earlier ih =>
    rw [List.cons_append, acknowledgeAll, acknowledgeAll, ih]
    exact (Program.bind_assoc ..).symm

/-- Whatever is read with it, an entry is acknowledged under its queue and changes nothing else. -/
def Skips (s : Shared) (b : BrokerId) (d : Delivery) : Prop :=
  ∀ stop before after, ∃ ids earlier later, d.id ∈ ids ∧
    idsByQueue (before ++ d :: after) = earlier ++ (d.queue, ids) :: later ∧
      handle s b stop (.ok (before ++ d :: after)) = (do
        acknowledgeAll b s.config.group earlier
        let _ ← ask (.broker b (.acknowledge d.queue s.config.group ids))
        acknowledgeAll b s.config.group later
        routeAll s b (before ++ after)
        return true)

theorem skips_placeholder {d : Delivery} (empty : d.envelope.isPlaceholder = true) : Skips s b d := by
  intro stop before after
  obtain ⟨ids, found, mem⟩ := Shutdown.find?_idsByQueue
    (List.mem_append_right before (List.mem_cons_self (a := d) (l := after)))
  obtain ⟨earlier, later, split⟩ := List.append_of_mem (List.mem_of_find?_eq_some found)
  refine ⟨ids, earlier, later, mem, split, ?_⟩
  rw [handle, split, acknowledgeAll_append, acknowledgeAll, routeAll_placeholder empty]
  simp only [bind_assoc]

end Node.Dispatch

namespace Redis

open Entry (dataField timeField placeholderField)
open Node (Shared)
open Node.Dispatch (Skips skips_placeholder)

/-- The payload of an entry; none is as good as an empty one. -/
def payloadOf (fields : List (String × Value)) : Bytes :=
  (Entry.field? Reading.bytes dataField fields).getD []

/-- What is read in place of an entry that cannot be understood. -/
def unreadable (queue id : String) : Delivery := ⟨queue, id, (Envelope.placeholder queue).withEntryId id⟩

variable {fields : List (String × Value)} {bytes : Bytes}

section Reading

variable (unmarked : Entry.lookUp placeholderField fields = none)
  (timed : Entry.lookUp timeField fields = some (.bulk bytes)) (queue id : String)
include unmarked timed

theorem delivery_of_text {text : String} (h : Utf8.decode? bytes = some text) :
    Entry.delivery queue id fields =
      ((Decimal.int64? text).map fun t => ⟨queue, id, ⟨queue, payloadOf fields, some t, some id⟩⟩).getD
        (unreadable queue id) := by
  have read : Entry.field? Reading.text timeField fields = some text := by
    simp [Entry.field?, timed, Reading.text, h, Except.toOption]
  cases number : Decimal.int64? text <;>
    simp [Entry.delivery, unmarked, Entry.envelope?, read, number, payloadOf, unreadable,
      Envelope.withEntryId]

theorem delivery_of_no_text (h : Utf8.decode? bytes = none) :
    Entry.delivery queue id fields = ⟨queue, id, ⟨queue, payloadOf fields, none, some id⟩⟩ := by
  have read : Entry.field? Reading.text timeField fields = none := by
    simp [Entry.field?, timed, Reading.text, h, Except.toOption]
  simp [Entry.delivery, unmarked, Entry.envelope?, read, payloadOf, Envelope.withEntryId]

end Reading

/-- The bytes are a whole number in decimal, of 64 bits. -/
def IsTime (bytes : Bytes) : Prop := ∃ text t, Utf8.decode? bytes = some text ∧ Decimal.int64? text = some t

/-- An entry comes out of a read as it is decoded, among what else the server answered. -/
def Reached (queue id : String) (fields : List (String × Value)) : Prop :=
  ∀ (ss : List (String × List Row)) (rows : List Row) (fs : List Field), (queue, rows) ∈ ss →
    (id, fs) ∈ rows → collected fs = fields → ∀ session : Session, session.closed = false →
      ∀ c group consumer queues count block, ∃ before after,
        (((Session.serve (.readGroup group consumer queues count block)).run session).run
          (answering c (Answer.streams ss))).1 =
            .ok (before ++ Entry.delivery queue id fields :: after)

def Calls (s : Shared) (b : BrokerId) (queue id : String) (payload : Bytes) (d : Delivery) : Prop :=
  Node.Dispatch.route s b d = Node.ask (.start
    { broker := b
      service := queue
      payload := payload
      replyKey := Key.reply queue id
      replyTtl := s.config.replyTtl })

structure Timed (s : Shared) (b : BrokerId) (queue id : String) (fields : List (String × Value))
    (bytes : Bytes) : Prop where
  reached : Reached queue id fields
  number : ∀ text t, Utf8.decode? bytes = some text → Decimal.int64? text = some t →
    Entry.delivery queue id fields = ⟨queue, id, ⟨queue, payloadOf fields, some t, some id⟩⟩
  otherText : ∀ text, Utf8.decode? bytes = some text → Decimal.int64? text = none →
    Entry.delivery queue id fields = unreadable queue id ∧ Skips s b (Entry.delivery queue id fields)
  noText : Utf8.decode? bytes = none →
    Entry.delivery queue id fields = ⟨queue, id, ⟨queue, payloadOf fields, none, some id⟩⟩ ∧
      (payloadOf fields ≠ [] → Calls s b queue id (payloadOf fields) (Entry.delivery queue id fields))
  undeferred : ¬ IsTime bytes → (Entry.delivery queue id fields).envelope.isDeferred = false ∧
    (Entry.delivery queue id fields).envelope.isTombstone = false
  skipped : ¬ IsTime bytes → ((Entry.delivery queue id fields).envelope.isPlaceholder = true ↔
    Utf8.decode? bytes ≠ none ∨ payloadOf fields = [])

theorem reached (queue id : String) (fields : List (String × Value)) : Reached queue id fields := by
  rintro ss rows fs stream row rfl session isOpen c group consumer queues count block
  have mem : Entry.delivery queue id (collected fs) ∈
      ss.flatMap fun s => s.2.map fun r => Entry.delivery s.1 r.1 (collected r.2) :=
    List.mem_flatMap.mpr ⟨_, stream, List.mem_map.mpr ⟨_, row, rfl⟩⟩
  obtain ⟨before, after, split⟩ := List.append_of_mem mem
  refine ⟨before, after, ?_⟩
  rw [← split]
  exact (batched ss).returned session isOpen c group consumer queues count block

theorem timed_delivery (s : Shared) (b : BrokerId) (queue id : String)
    (unmarked : Entry.lookUp placeholderField fields = none)
    (timed : Entry.lookUp timeField fields = some (.bulk bytes)) :
    Timed s b queue id fields bytes := by
  have other {text : String} (h : Utf8.decode? bytes = some text) (none : Decimal.int64? text = none) :
      Entry.delivery queue id fields = unreadable queue id := by
    rw [delivery_of_text unmarked timed queue id h, none]
    rfl
  -- Bytes that are no time are no text, or a text that is no number.
  have cases (h : ¬ IsTime bytes) :
      Entry.delivery queue id fields = unreadable queue id ∧ Utf8.decode? bytes ≠ none ∨
        Entry.delivery queue id fields = ⟨queue, id, ⟨queue, payloadOf fields, none, some id⟩⟩ ∧
          Utf8.decode? bytes = none := by
    cases read : Utf8.decode? bytes with
    | none => exact .inr ⟨delivery_of_no_text unmarked timed queue id read, rfl⟩
    | some text =>
      cases number : Decimal.int64? text with
      | none => exact .inl ⟨other read number, nofun⟩
      | some t => exact absurd ⟨text, t, read, number⟩ h
  refine ⟨reached queue id fields, fun text t h number => ?_, fun text h none => ⟨other h none, ?_⟩,
    fun noText => ⟨delivery_of_no_text unmarked timed queue id noText, fun call => ?_⟩,
    fun h => ?_, fun h => ?_⟩
  · rw [delivery_of_text unmarked timed queue id h, number]
    rfl
  · rw [other h none]
    exact skips_placeholder rfl
  · rw [delivery_of_no_text unmarked timed queue id noText]
    simp [Calls, Node.Dispatch.route, Envelope.isPlaceholder, call]
  · rcases cases h with ⟨same, -⟩ | ⟨same, -⟩ <;> rw [same] <;> exact ⟨rfl, rfl⟩
  · rcases cases h with ⟨same, text⟩ | ⟨same, noText⟩
    · rw [same]
      exact iff_of_true rfl (.inl text)
    · rw [same]
      simp [Envelope.isPlaceholder, noText]

def misdated (time : Bytes) : List (String × Value) :=
  [(dataField, .bulk [0x31]), (timeField, .bulk time)]

theorem timed_delivery_word :
    Entry.lookUp placeholderField (misdated (Utf8.encode "soon")) = none ∧
      Entry.lookUp timeField (misdated (Utf8.encode "soon")) = some (.bulk (Utf8.encode "soon")) ∧
        Timed (Network.Setup.echo "rpc").shared 0 "s" "1-1" (misdated (Utf8.encode "soon"))
          (Utf8.encode "soon") ∧
            Entry.delivery "s" "1-1" (misdated (Utf8.encode "soon")) = unreadable "s" "1-1" := by
  have unmarked : Entry.lookUp placeholderField (misdated (Utf8.encode "soon")) = none := rfl
  have time : Entry.lookUp timeField (misdated (Utf8.encode "soon")) =
    some (.bulk (Utf8.encode "soon")) := rfl
  have read := timed_delivery (Network.Setup.echo "rpc").shared 0 "s" "1-1" unmarked time
  exact ⟨unmarked, time, read, (read.otherText "soon" (by decide +kernel) (by decide +kernel)).1⟩

/-- A time that is no text is passed over, and the call is made at once. -/
theorem not_always_skipped : ¬ ∀ fields bytes, Entry.lookUp placeholderField fields = none →
    Entry.lookUp timeField fields = some (.bulk bytes) → ¬ IsTime bytes →
      (Entry.delivery "s" "1-1" fields).envelope.isPlaceholder = true := by
  intro skipped
  have noText : Utf8.decode? [0xff] = none := by decide +kernel
  have untimed : ¬ IsTime [0xff] := by
    rintro ⟨text, t, h, -⟩
    cases noText.symm.trans h
  have placeholder := skipped (misdated [0xff]) [0xff] rfl rfl untimed
  rw [delivery_of_no_text rfl rfl "s" "1-1" noText] at placeholder
  cases placeholder

end Redis
end BrokeredCalls
