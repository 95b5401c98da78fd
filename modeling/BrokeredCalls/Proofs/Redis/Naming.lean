import BrokeredCalls.Proofs.Redis.Groups

/-!
The name of a missing queue. A server puts it in quotes into its answer to a group read, and what is read
back is the text up to the next quote; so a name is read back whole if and only if it has no quote in it.
-/

namespace BrokeredCalls.Redis

open Program (Runs)

/-- A name up to its first quote. -/
def beforeQuote (name : String) : String := String.ofList (name.toList.takeWhile (· ≠ '\''))

theorem beforeQuote_eq_iff {name : String} : beforeQuote name = name ↔ '\'' ∉ name.toList := by
  have whole : beforeQuote name = name ↔ name.toList.takeWhile (· ≠ '\'') = name.toList := by
    rw [beforeQuote, ← String.toList_inj, String.toList_ofList]
  rw [whole, List.takeWhile_eq_self_iff]
  constructor
  · intro free mem
    simpa using free _ mem
  · intro free c mem
    simpa using ne_of_mem free mem

theorem quote_not_mem_beforeQuote (name : String) : '\'' ∉ (beforeQuote name).toList := by
  intro mem
  rw [beforeQuote, String.toList_ofList] at mem
  simpa using List.mem_takeWhile_imp mem

theorem firstQuoted_between {before word after : String} (h : '\'' ∉ before.toList) :
    Session.firstQuoted (before ++ "'" ++ word ++ "'" ++ after) = some (beforeQuote word) := by
  have text : (before ++ "'" ++ word ++ "'" ++ after).toList =
      before.toList ++ '\'' :: (word.toList ++ '\'' :: after.toList) := by
    simp [String.toList_append]
  have skipped : (before.toList ++ '\'' :: (word.toList ++ '\'' :: after.toList)).dropWhile (· ≠ '\'') =
      '\'' :: (word.toList ++ '\'' :: after.toList) := by
    rw [List.dropWhile_append_of_pos fun c mem => by simpa using ne_of_mem h mem]
    rfl
  have taken : (word.toList ++ '\'' :: after.toList).takeWhile (· ≠ '\'') =
      word.toList.takeWhile (· ≠ '\'') := by
    have stops : ('\'' :: after.toList).takeWhile (· ≠ '\'') = [] := rfl
    rw [List.takeWhile_append, stops, List.append_nil]
    split
    · next whole => exact ((List.takeWhile_prefix _).eq_of_length whole).symm
    · rfl
  have shorter : (word.toList.takeWhile (· ≠ '\'')).length <
      (word.toList ++ '\'' :: after.toList).length := by
    have le := (List.takeWhile_prefix (l := word.toList) (· ≠ '\'')).length_le
    rw [List.length_append, List.length_cons]
    omega
  rw [Session.firstQuoted, text, skipped, List.drop_one, List.tail_cons]
  generalize word.toList ++ '\'' :: after.toList = rest at taken shorter
  cases rest with
  | nil => cases shorter
  | cons c cs =>
    dsimp only
    rw [taken, if_pos shorter, beforeQuote]

theorem noGroup_eq (queue group : String) :
    Answer.noGroup queue group = ⟨"NOGROUP", some ("No such key '" ++ queue ++ "'" ++
      (" or consumer group '" ++ group ++ "' in XREADGROUP with GROUP option"))⟩ := by
  have text : Answer.noGroupText queue group = "NOGROUP" ++ " " ++ ("No such key '" ++ queue ++ "'" ++
      (" or consumer group '" ++ group ++ "' in XREADGROUP with GROUP option")) := by
    have first : "NOGROUP No such key '" = "NOGROUP" ++ " " ++ "No such key '" := by decide +kernel
    have second : "' or consumer group '" = "'" ++ " or consumer group '" := by decide +kernel
    unfold Answer.noGroupText
    rw [first, second]
    simp only [String.append_assoc]
  rw [Answer.noGroup, text, ofText_words (by decide)]

theorem missingQueue?_noGroup (queue group : String) :
    Session.missingQueue? (.server (Answer.noGroup queue group)) = some (beforeQuote queue) := by
  have message : (Answer.noGroup queue group).message = "NOGROUP: No such key " ++ "'" ++ queue ++ "'" ++
      (" or consumer group '" ++ group ++ "' in XREADGROUP with GROUP option") := by
    have first : "NOGROUP: No such key " ++ "'" = "NOGROUP" ++ ": " ++ "No such key '" := by
      decide +kernel
    rw [noGroup_eq, first]
    show "NOGROUP" ++ ": " ++ _ = _
    simp only [String.append_assoc]
  have own : (Answer.noGroup queue group).hasOwnCode "NOGROUP" = true := by
    rw [noGroup_eq]
    rfl
  rw [Session.missingQueue?, if_pos own, message, firstQuoted_between (by decide)]

def Session.reads (s : Session) (c : Connection) : Session :=
  { s with reading := some (s.reading.getD c) }

section Read

variable {e : ServerError} {name : String} (named : Session.missingQueue? (.server e) = some name)
include named

theorem concludeRead_missing (s : Session) :
    (concludeRead ((Session.single [.error e]).bind Entry.batch)).run.run s =
      .done (.error (.missingQueue name), s) := by
  show (concludeRead (.error (.server e))).run.run s = _
  rw [concludeRead, named]
  rfl

theorem readGroup_missing {s : Session} (isOpen : s.closed = false) (c : Connection)
    (group consumer : String) (queues : List String) (count : Nat) (block : Duration) :
    ((Session.serve (.readGroup group consumer queues count block)).run s).run
      (answering c (.error e)) = (.error (.missingQueue name), s.reads c) := by
  obtain ⟨broker, shared, reading, closed⟩ := s
  obtain rfl : closed = false := isOpen
  have ends (s : Session) :
      ((concludeRead ((Session.single [.error e]).bind Entry.batch)).run.run s).run
        (answering c (.error e)) = (.error (.missingQueue name), s) := by
    rw [concludeRead_missing named]
    rfl
  cases reading with
  | none => exact ends ⟨broker, shared, some c, false⟩
  | some c' => exact ends ⟨broker, shared, some c', false⟩

end Read

section Lacking

variable {s s' : Session} {ss ss' : Streams} {r : Except Error (List Delivery)} {group consumer : String}
  {queues : List String} {count blockMillis : Nat} {c : Connection} {limit : Duration}
  (lacking : ∃ q ∈ queues, ss.carries q group = false)
include lacking

theorem exchange_read_runs {next : Outcome → Program Wire.interface (Except Error (List Delivery) × Session)}
    (answered : ∀ v, next (.answers [v]) = (concludeRead ((Session.single [v]).bind Entry.batch)).run.run s) :
    Runs Executing (.ask (I := Wire.interface)
        (.exchange c [.readGroup group consumer count blockMillis queues] limit) next) ss (r, s') ss' ↔
      s' = s ∧ ss' = ss ∧
        ∃ q ∈ queues, ss.carries q group = false ∧ r = .error (.missingQueue (beforeQuote q)) := by
  constructor
  · rintro ⟨_, _, ⟨v, executes, rfl⟩, rest⟩
    rw [answered] at rest
    cases executes with
    | read carried _ =>
      obtain ⟨q, mem, lacks⟩ := lacking
      cases lacks.symm.trans (carried q mem)
    | @unread _ _ _ _ _ q mem lacks =>
      rw [concludeRead_missing (missingQueue?_noGroup q group)] at rest
      obtain ⟨heq, rfl⟩ := rest
      obtain ⟨rfl, rfl⟩ := Prod.mk.inj heq
      exact ⟨rfl, rfl, q, mem, lacks, rfl⟩
  · rintro ⟨rfl, rfl, q, mem, lacks, rfl⟩
    refine ⟨.answers [.error (Answer.noGroup q group)], ss', ⟨_, .unread mem lacks, rfl⟩, ?_⟩
    rw [answered, concludeRead_missing (missingQueue?_noGroup q group)]
    exact ⟨rfl, rfl⟩

theorem readGroup_runs {count : Nat} {block : Duration} (isOpen : s.closed = false) :
    Calling ⟨s, ss⟩ (.readGroup group consumer queues count block) r ⟨s', ss'⟩ ↔
      (∃ c, s' = s.reads c) ∧ ss' = ss ∧
        ∃ q ∈ queues, ss.carries q group = false ∧ r = .error (.missingQueue (beforeQuote q)) := by
  obtain ⟨name, shared, reading, closed⟩ := s
  obtain rfl : closed = false := isOpen
  cases reading with
  | some c =>
    refine (exchange_read_runs (s := ⟨name, shared, some c, false⟩) lacking fun v => rfl).trans ?_
    exact and_congr_left fun _ => ⟨fun h => ⟨c, h⟩, fun ⟨_, h⟩ => h⟩
  | none =>
    constructor
    · rintro ⟨_, _, ⟨⟨c, rfl⟩, rfl⟩, run⟩
      obtain ⟨rfl, rfl, missed⟩ :=
        (exchange_read_runs (s := ⟨name, shared, some c, false⟩) lacking fun v => rfl).mp run
      exact ⟨⟨c, rfl⟩, rfl, missed⟩
    · rintro ⟨⟨c, rfl⟩, rfl, missed⟩
      refine ⟨.opened c, ss', ⟨⟨c, rfl⟩, rfl⟩, ?_⟩
      exact (exchange_read_runs (s := ⟨name, shared, some c, false⟩) lacking fun v => rfl).mpr
        ⟨rfl, rfl, missed⟩

end Lacking

end BrokeredCalls.Redis
