import BrokeredCalls.Proofs.Provisioning.Calls
import BrokeredCalls.Proofs.Redis.Streams

/-!
Groups on a server: what the calls that provision a queue come to on an open session, and that the queue
carries the group after them while every other stream is as it was.
-/

namespace BrokeredCalls.Redis

open Broker (createGroupAgain ensureGroup)
open Program (Runs)
open Provisioning (listing)

structure Client where
  session : Session
  streams : Streams

def Calling : Broker.interface.Service Client :=
  fun w c r w' => Runs Executing ((Session.serve c).run w.session) w.streams (r, w'.session) w'.streams

section Texts

theorem ne_of_mem {c d : Char} {cs : List Char} (h : c ∉ cs) (mem : d ∈ cs) : d ≠ c := by
  rintro rfl
  exact h mem

theorem ofText_words {code detail : String} (h : ' ' ∉ code.toList) :
    ServerError.ofText (code ++ " " ++ detail) = ⟨code, some detail⟩ := by
  have text : (code ++ " " ++ detail).toList = code.toList ++ ' ' :: detail.toList := by
    simp [String.toList_append]
  have first : (code.toList ++ ' ' :: detail.toList).takeWhile (· ≠ ' ') = code.toList := by
    rw [List.takeWhile_append_of_pos fun c mem => by simpa using ne_of_mem h mem]
    simp
  rw [ServerError.ofText, text, first, List.drop_left]
  simp

theorem contains_self (part after : List Char) : Session.contains (part ++ after) part = true := by
  cases part with
  | nil => cases after <;> rfl
  | cons c part =>
    have starts : (c :: part).isPrefixOf (c :: (part ++ after)) = true :=
      List.isPrefixOf_iff_prefix.mpr (List.prefix_append (c :: part) after)
    rw [List.cons_append, Session.contains, starts, Bool.true_or]

theorem contains_append {text part : List Char} (within : Session.contains text part = true)
    (before : List Char) : Session.contains (before ++ text) part = true := by
  induction before with
  | nil => exact within
  | cons c before ih => rw [List.cons_append, Session.contains, ih, Bool.or_true]

theorem contains_message {detail : String} {part : List Char}
    (within : Session.contains (detail.toList.map Char.toLower) part = true) :
    Session.contains ((Failure.server (.ofText ("ERR" ++ " " ++ detail))).message.toList.map
      Char.toLower) part = true := by
  rw [ofText_words (by decide)]
  show Session.contains (("An error was signalled by the server - " ++ "ResponseError" ++ ": " ++
    detail).toList.map Char.toLower) part = true
  rw [String.toList_append, List.map_append]
  exact contains_append within _

theorem saysNoSuchKey_noSuchKey : Session.saysNoSuchKey (.server Answer.noSuchKey) = true := by
  have within : Session.contains ("no such key".toList.map Char.toLower) "no such key".toList =
      true := by decide +kernel
  have said := contains_message within
  rw [Answer.noSuchKey, Session.saysNoSuchKey, said, Bool.true_or]

theorem saysNoSuchKey_keyRequired : Session.saysNoSuchKey (.server Answer.keyRequired) = true := by
  have lower : "requires the key to exist".toList.map Char.toLower =
      "requires the key to exist".toList := by decide +kernel
  have within (before after : String) :
      Session.contains ((before ++ "requires the key to exist" ++ after).toList.map Char.toLower)
        "requires the key to exist".toList = true := by
    simp only [String.toList_append, List.map_append, List.append_assoc, lower]
    exact contains_append (contains_self ..) _
  rw [Answer.keyRequired, Session.saysNoSuchKey, contains_message (within ..), Bool.or_true]

end Texts

section Listing

theorem text_text (s : String) : Reading.text (Answer.text s) = .ok s := text_encode s

theorem pairs_text (acc : List (String × Value)) (k : String) (v : Value) (rest : List Value) :
    Reading.pairs Reading.any acc (Answer.text k :: v :: rest) =
      Reading.pairs Reading.any (Reading.setPair k v acc) rest := by
  rw [Reading.pairs, text_text]
  rfl

def GroupInfo.fields (x : GroupInfo) : List (String × Value) :=
  [("name", Answer.text x.name), ("consumers", .int x.consumers), ("pending", .int x.pending),
    ("last-delivered-id", Answer.text x.lastDelivered), ("entries-read", Answer.count x.entriesRead),
    ("lag", Answer.count x.lag)]

theorem map_group (x : GroupInfo) : Reading.map Reading.any (Answer.group x) = .ok x.fields := by
  rw [Answer.group, Reading.map, if_pos (by simp)]
  simp only [pairs_text]
  simp [Reading.pairs, Reading.setPair, GroupInfo.fields]

theorem nat_count (n : Option Nat) : ∃ m, Reading.option Reading.nat (Answer.count n) = .ok m := by
  cases n <;> exact ⟨_, rfl⟩

theorem groupName_fields (x : GroupInfo) : Session.groupName x.fields = .ok x.name := by
  obtain ⟨read, hread⟩ := nat_count x.entriesRead
  obtain ⟨left, hleft⟩ := nat_count x.lag
  have nat (n : Nat) : Reading.nat (.int n) = .ok ((n : Int) % UInt64.size).toNat := rfl
  simp [Session.groupName, GroupInfo.fields, lookUp_cons, text_text, nat, hread, hleft]
  rfl

theorem mapM_fields (xs : List GroupInfo) :
    (xs.map GroupInfo.fields).mapM Session.groupName = .ok (xs.map (·.name)) := by
  induction xs with
  | nil => rfl
  | cons x xs ih =>
    rw [List.map_cons, List.mapM_cons, groupName_fields, ih]
    rfl

theorem groupNames_groups (xs : List GroupInfo) :
    Session.groupNames (.array (xs.map Answer.group)) = .ok (xs.map (·.name)) := by
  have all : Reading.list (Reading.map Reading.any) (.array (xs.map Answer.group)) =
      .ok (xs.map GroupInfo.fields) := items_map map_group xs
  rw [Session.groupNames, all]
  exact mapM_fields xs

theorem signalled?_groups (xs : List GroupInfo) :
    (Value.array (xs.map Answer.group)).signalled? = none := by
  have count (n : Option Nat) : (Answer.count n).signalled? = none := by cases n <;> rfl
  refine signalled?_map (fun x => ?_) xs
  refine signalledIn?_eq_none fun v hv => ?_
  simp only [List.mem_cons, List.not_mem_nil, or_false] at hv
  rcases hv with rfl | rfl | rfl | rfl | rfl | rfl | rfl | rfl | rfl | rfl | rfl | rfl
  all_goals first | rfl | exact count _

end Listing

section Steps

variable {α β : Type} {s s' : Session} {ss ss' : Streams}

theorem tryCommand_run (what : String) (c : Command) (read : Reading α) (s : Session) :
    (Session.tryCommand what c read).run.run s =
      if s.closed then .done (.error (.brokerClosed s.name), s)
      else .ask (I := Wire.interface) (.exchange s.shared [c] commandTimeout) fun o => .done (match o with
        | .answers vs => .ok ((Session.single vs).bind read)
        | .dropped => .ok (.error .dropped)
        | .late => .error (Session.late s.name what commandTimeout), s) := by
  obtain ⟨name, shared, reading, closed⟩ := s
  cases closed with
  | true => rfl
  | false =>
    refine congrArg (Program.ask (I := Wire.interface) _) (funext fun o => ?_)
    cases o <;> rfl

theorem tryCommand_bind_runs {what : String} {c : Command} {read : Reading α}
    {f : Except Failure α → Session.Step β} (isOpen : s.closed = false)
    (conclude : Except Failure α → Except Error β)
    (pure : ∀ x, (f x).run.run s = .done (conclude x, s)) {r : Except Error β} :
    Runs Executing ((Session.tryCommand what c read >>= f).run.run s) ss (r, s') ss' ↔
      ∃ v, Executes ss c v ss' ∧ r = conclude ((Session.single [v]).bind read) ∧ s' = s := by
  have whole : (Session.tryCommand what c read >>= f).run.run s =
      (Session.tryCommand what c read).run.run s >>= fun x => match x with
        | (.ok a, s) => (f a).run.run s
        | (.error e, s) => .done (.error e, s) := by
    refine congrArg (Bind.bind ((Session.tryCommand what c read).run.run s)) (funext fun x => ?_)
    obtain ⟨a | e, s₁⟩ := x <;> rfl
  rw [whole, tryCommand_run, isOpen]
  constructor
  · rintro ⟨_, _, ⟨v, executes, rfl⟩, rest⟩
    have rest : Runs Executing ((f ((Session.single [v]).bind read)).run.run s) _ (r, s') ss' := rest
    rw [pure] at rest
    obtain ⟨heq, rfl⟩ := rest
    obtain ⟨rfl, rfl⟩ := Prod.mk.inj heq
    exact ⟨v, executes, rfl, rfl⟩
  · rintro ⟨v, executes, rfl, rfl⟩
    refine ⟨.answers [v], ss', ⟨v, executes, rfl⟩, ?_⟩
    show Runs Executing ((f ((Session.single [v]).bind read)).run.run s') ss' _ ss'
    rw [pure]
    exact ⟨rfl, rfl⟩

end Steps

def Stream.join (s : Stream) (group : String) : Stream :=
  if s.groups.contains group then s else { s with groups := group :: s.groups }

namespace Streams

theorem put_self {ss : Streams} {queue : String} {s : Stream} (there : ss queue = some s) :
    ss.put queue s = ss := by
  rw [put, ← there]
  exact Function.update_eq_self queue ss

def listed (ss : Streams) (queue : String) : Except Error (List String) :=
  match ss queue with
  | some s => .ok s.groups
  | none => .error (.missingQueue queue)

theorem put_put (ss : Streams) (queue : String) (s s' : Stream) :
    (ss.put queue s).put queue s' = ss.put queue s' := Function.update_idem ..

end Streams

def existenceOf (s : Session) (q : String) : Except Failure Int → Except Error Bool
  | .ok n => .ok (decide (0 < n))
  | .error f => .error (Session.failed s.name ("EXISTS " ++ q) f)

def listingOf (s : Session) (q : String) : Except Failure (List String) → Except Error (List String)
  | .ok names => .ok names
  | .error f => if Session.saysNoSuchKey f then .error (.missingQueue q)
    else .error (Session.failed s.name ("XINFO GROUPS " ++ q) f)

def isBusy : Failure → Bool
  | .server e => e.hasOwnCode "BUSYGROUP"
  | _ => false

def creationOf (s : Session) (q g : String) : Except Failure Unit → Except Error Unit
  | .ok () => .ok ()
  | .error f =>
    if isBusy f then .ok ()
    else if Session.saysNoSuchKey f then .error (.missingQueue q)
    else .error (Session.failed s.name ("XGROUP CREATE " ++ q ++ " " ++ g) f)

theorem listingOf_groups (s : Session) (q : String) (xs : List GroupInfo) :
    listingOf s q ((Session.single [.array (xs.map Answer.group)]).bind Session.groupNames) =
      .ok (xs.map (·.name)) := by
  have named : (Session.single [.array (xs.map Answer.group)]).bind Session.groupNames =
      .ok (xs.map (·.name)) := by
    rw [Session.single, signalled?_groups]
    exact groupNames_groups xs
  rw [named, listingOf]

theorem listingOf_noSuchKey (s : Session) (q : String) :
    listingOf s q ((Session.single [.error Answer.noSuchKey]).bind Session.groupNames) =
      .error (.missingQueue q) := by
  show listingOf s q (.error (.server Answer.noSuchKey)) = _
  rw [listingOf, if_pos saysNoSuchKey_noSuchKey]

theorem creationOf_keyRequired (s : Session) (q g : String) :
    creationOf s q g ((Session.single [.error Answer.keyRequired]).bind Reading.nothing) =
      .error (.missingQueue q) := by
  have other : isBusy (.server Answer.keyRequired) = false := by
    rw [Answer.keyRequired, ofText_words (by decide)]
    rfl
  show creationOf s q g (.error (.server Answer.keyRequired)) = _
  rw [creationOf, other, if_neg Bool.false_ne_true, if_pos saysNoSuchKey_keyRequired]

theorem creationOf_busyGroup (s : Session) (q g : String) :
    creationOf s q g ((Session.single [.error Answer.busyGroup]).bind Reading.nothing) = .ok () := by
  have busy : isBusy (.server Answer.busyGroup) = true := by decide +kernel
  show creationOf s q g (.error (.server Answer.busyGroup)) = _
  rw [creationOf, if_pos busy]

theorem listGroups_run (s : Session) (q : String) (x : Except Failure (List String)) :
    (match x with
      | .ok names => return names
      | .error f => if Session.saysNoSuchKey f then throw (.missingQueue q)
        else Session.orFail ("XINFO GROUPS " ++ q) (.error f) : Session.Step (List String)).run.run s =
      .done (listingOf s q x, s) := by
  cases x with
  | ok names => rfl
  | error f =>
    unfold listingOf
    cases absent : Session.saysNoSuchKey f <;> simp only [absent] <;> rfl

theorem createGroup_run (s : Session) (q g : String) (f : Failure) :
    (if isBusy f then return ()
      else if Session.saysNoSuchKey f then throw (.missingQueue q)
      else Session.orFail ("XGROUP CREATE " ++ q ++ " " ++ g) (.error f) :
        Session.Step Unit).run.run s = .done (creationOf s q g (.error f), s) := by
  unfold creationOf
  cases busy : isBusy f with
  | true =>
    simp only [busy]
    rfl
  | false =>
    simp only [busy]
    cases Session.saysNoSuchKey f <;> rfl

section Calls

variable {s s' : Session} {ss ss' : Streams} {q g : String} (isOpen : s.closed = false)
include isOpen

theorem calling_exists {r : Except Error Bool} :
    Calling ⟨s, ss⟩ (.queueExists q) r ⟨s', ss'⟩ ↔ r = .ok (ss q).isSome ∧ s' = s ∧ ss' = ss := by
  have whole : Session.perform (.queueExists q) =
      Session.tryCommand ("EXISTS " ++ q) (.exists q) Reading.int >>= fun x =>
        Session.orFail ("EXISTS " ++ q) x >>= fun n => pure (decide (0 < n)) := bind_assoc ..
  have look (there : Bool) : (Session.single [.int (if there then 1 else 0)]).bind Reading.int =
      .ok (if there then 1 else 0) := rfl
  have found (there : Bool) : decide ((0 : Int) < if there then 1 else 0) = there := by
    cases there <;> rfl
  have ends (x : Except Failure Int) :
      (Session.orFail ("EXISTS " ++ q) x >>= fun n => pure (decide (0 < n)) :
        Session.Step Bool).run.run s = .done (existenceOf s q x, s) := by
    cases x <;> rfl
  show Runs Executing ((Session.perform (.queueExists q)).run.run s) ss (r, s') ss' ↔ _
  rw [whole]
  refine (tryCommand_bind_runs isOpen (existenceOf s q) ends).trans ?_
  constructor
  · rintro ⟨v, executes, rfl, rfl⟩
    cases executes
    rw [look]
    exact ⟨congrArg Except.ok (found _), rfl, rfl⟩
  · rintro ⟨rfl, rfl, rfl⟩
    refine ⟨_, .looked q, ?_, rfl⟩
    rw [look]
    exact congrArg Except.ok (found _).symm

theorem calling_place {r : Except Error String} :
    Calling ⟨s, ss⟩ (.appendPlaceholder q) r ⟨s', ss'⟩ ↔ ∃ id, r = .ok id ∧ s' = s ∧
      ss' = ss.put q (((ss q).getD .empty).add (id, Entry.placeholderFields) none) :=
  addition_runs (a := .placeholder) isOpen

theorem calling_list {r : Except Error (List String)} :
    Calling ⟨s, ss⟩ (.listGroups q) r ⟨s', ss'⟩ ↔ r = ss.listed q ∧ s' = s ∧ ss' = ss := by
  show Runs Executing ((Session.listGroups q).run.run s) ss (r, s') ss' ↔ _
  refine (tryCommand_bind_runs isOpen (listingOf s q) (listGroups_run s q)).trans ?_
  unfold Streams.listed
  constructor
  · rintro ⟨v, executes, rfl, rfl⟩
    cases executes with
    | listed there xs all =>
      rw [listingOf_groups, there, all]
      exact ⟨rfl, rfl, rfl⟩
    | unlisted missing =>
      rw [listingOf_noSuchKey, missing]
      exact ⟨rfl, rfl, rfl⟩
  · rintro ⟨rfl, rfl, rfl⟩
    cases there : ss' q with
    | none => exact ⟨_, .unlisted there, (listingOf_noSuchKey s' q).symm, rfl⟩
    | some st =>
      have all : (st.groups.map fun g => (⟨g, 0, 0, "0-0", none, none⟩ : GroupInfo)).map (·.name) =
          st.groups := by
        rw [List.map_map]
        exact List.map_id _
      exact ⟨_, .listed there _ all, by rw [listingOf_groups, all], rfl⟩

theorem calling_create {r : Except Error Unit} :
    Calling ⟨s, ss⟩ (.createGroup q g) r ⟨s', ss'⟩ ↔ s' = s ∧
      (ss q = none ∧ r = .error (.missingQueue q) ∧ ss' = ss ∨
        ∃ st, ss q = some st ∧ r = .ok () ∧ ss' = ss.put q (st.join g)) := by
  show Runs Executing ((Session.createGroup q g).run.run s) ss (r, s') ss' ↔ _
  refine (tryCommand_bind_runs isOpen (creationOf s q g) fun x => ?_).trans ?_
  · cases x with
    | ok _ => rfl
    | error f => exact createGroup_run s q g f
  constructor
  · rintro ⟨v, executes, rfl, rfl⟩
    refine ⟨rfl, ?_⟩
    cases executes with
    | @grouped _ _ st there new =>
      refine .inr ⟨st, there, rfl, ?_⟩
      rw [Stream.join, if_neg (by simpa using new)]
    | busy carried =>
      obtain ⟨st, there, mem⟩ := Streams.carries_iff.mp carried
      refine .inr ⟨st, there, creationOf_busyGroup s' q g, ?_⟩
      rw [Stream.join, if_pos (by simpa using mem), Streams.put_self there]
    | ungrouped missing => exact .inl ⟨missing, creationOf_keyRequired s' q g, rfl⟩
  · rintro ⟨rfl, ⟨missing, rfl, rfl⟩ | ⟨st, there, rfl, rfl⟩⟩
    · exact ⟨_, .ungrouped missing, (creationOf_keyRequired s' q g).symm, rfl⟩
    · by_cases mem : g ∈ st.groups
      · rw [Stream.join, if_pos (by simpa using mem), Streams.put_self there]
        have carried := Streams.carries_iff.mpr ⟨st, there, mem⟩
        exact ⟨_, .busy carried, (creationOf_busyGroup s' q g).symm, rfl⟩
      · rw [Stream.join, if_neg (by simpa using mem)]
        exact ⟨_, .grouped there mem, rfl, rfl⟩

theorem createGroupAgain_runs {r : Except Error Unit} {st : Stream} (there : ss q = some st) :
    Runs Calling (createGroupAgain q g).run ⟨s, ss⟩ r ⟨s', ss'⟩ ↔
      r = .ok () ∧ s' = s ∧ ss' = ss.put q (st.join g) := by
  constructor
  · rintro ⟨x, ⟨s₁, ss₁⟩, created, run⟩
    obtain ⟨rfl, ⟨missing, -⟩ | ⟨st', there', rfl, rfl⟩⟩ := (calling_create isOpen).mp created
    · cases there.symm.trans missing
    · cases there.symm.trans there'
      obtain ⟨rfl, heq⟩ := run
      cases heq
      exact ⟨rfl, rfl, rfl⟩
  · rintro ⟨rfl, rfl, rfl⟩
    refine ⟨.ok (), ⟨s', ss.put q (st.join g)⟩, ?_, rfl, rfl⟩
    exact (calling_create isOpen).mpr ⟨rfl, .inr ⟨st, there, rfl, rfl⟩⟩

theorem listing_runs {r : Except Error Unit} {st : Stream} (there : ss q = some st) :
    Runs Calling (listing q g).run ⟨s, ss⟩ r ⟨s', ss'⟩ ↔
      r = .ok () ∧ s' = s ∧ ss' = ss.put q (st.join g) := by
  have listed : ss.listed q = .ok st.groups := by rw [Streams.listed, there]
  have rest : Runs Calling (if g ∈ st.groups then pure () else createGroupAgain q g :
      Fallible Broker.interface Error Unit).run ⟨s, ss⟩ r ⟨s', ss'⟩ ↔
      r = .ok () ∧ s' = s ∧ ss' = ss.put q (st.join g) := by
    by_cases mem : g ∈ st.groups
    · rw [if_pos mem, Stream.join, if_pos (by simpa using mem), Streams.put_self there]
      exact and_congr_right fun _ => (Client.mk.injEq ..).to_iff
    · rw [if_neg mem]
      exact createGroupAgain_runs isOpen there
  refine Iff.trans ?_ rest
  constructor
  · rintro ⟨x, ⟨s₁, ss₁⟩, answered, run⟩
    obtain ⟨rfl, rfl, rfl⟩ := (calling_list isOpen).mp answered
    rw [listed] at run
    exact run
  · intro run
    exact ⟨.ok st.groups, ⟨s, ss⟩, (calling_list isOpen).mpr ⟨listed.symm, rfl, rfl⟩, run⟩

/-- The stream after a provisioning; one that was missing holds a placeholder. -/
inductive Grouped (g : String) : Option Stream → Stream → Prop
  | joined (st : Stream) : Grouped g (some st) (st.join g)
  | placed (id : String) :
    Grouped g none ((Stream.empty.add (id, Entry.placeholderFields) none).join g)

theorem ensureGroup_runs {r : Except Error Unit} :
    Runs Calling (ensureGroup q g).run ⟨s, ss⟩ r ⟨s', ss'⟩ ↔
      r = .ok () ∧ s' = s ∧ ∃ st, Grouped g (ss q) st ∧ ss' = ss.put q st := by
  rw [Provisioning.ensureGroup_eq]
  cases there : ss q with
  | some st =>
    have looks : Calling ⟨s, ss⟩ (.queueExists q) (.ok true) ⟨s, ss⟩ :=
      (calling_exists isOpen).mpr ⟨by rw [there]; rfl, rfl, rfl⟩
    constructor
    · rintro ⟨x, ⟨s₁, ss₁⟩, looked, run⟩
      obtain ⟨rfl, rfl, rfl⟩ := (calling_exists isOpen).mp looked
      rw [there] at run
      obtain ⟨hr, hs, hss⟩ := (listing_runs isOpen there).mp run
      exact ⟨hr, hs, _, .joined st, hss⟩
    · rintro ⟨hr, hs, _, ⟨⟩, hss⟩
      exact ⟨.ok true, ⟨s, ss⟩, looks, (listing_runs isOpen there).mpr ⟨hr, hs, hss⟩⟩
  | none =>
    have looks : Calling ⟨s, ss⟩ (.queueExists q) (.ok false) ⟨s, ss⟩ :=
      (calling_exists isOpen).mpr ⟨by rw [there]; rfl, rfl, rfl⟩
    have placed (id : String) : (ss.put q (((ss q).getD .empty).add (id, Entry.placeholderFields) none)) =
        ss.put q (Stream.empty.add (id, Entry.placeholderFields) none) := by rw [there]; rfl
    constructor
    · rintro ⟨x, ⟨s₁, ss₁⟩, looked, run⟩
      obtain ⟨rfl, rfl, rfl⟩ := (calling_exists isOpen).mp looked
      rw [there] at run
      obtain ⟨y, ⟨s₂, ss₂⟩, answered, run⟩ := run
      obtain ⟨id, rfl, rfl, rfl⟩ := (calling_place isOpen).mp answered
      rw [placed] at run
      obtain ⟨hr, hs, hss⟩ := (listing_runs isOpen (Streams.put_same ..)).mp run
      rw [Streams.put_put] at hss
      exact ⟨hr, hs, _, .placed id, hss⟩
    · rintro ⟨hr, hs, _, grouped, hss⟩
      obtain - | id := grouped
      refine ⟨.ok false, ⟨s, ss⟩, looks, .ok id, ⟨s, _⟩, (calling_place isOpen).mpr ⟨id, rfl, rfl, rfl⟩, ?_⟩
      rw [placed]
      refine (listing_runs isOpen (Streams.put_same ..)).mpr ⟨hr, hs, ?_⟩
      rw [Streams.put_put, hss]

end Calls

end BrokeredCalls.Redis
