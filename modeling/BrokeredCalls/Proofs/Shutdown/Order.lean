import BrokeredCalls.Proofs.Network.Tracking
import BrokeredCalls.Proofs.Shutdown.Following
import BrokeredCalls.Proofs.Shutdown.Lifecycle
import BrokeredCalls.Proofs.Shutdown.Record

namespace BrokeredCalls.Shutdown

open Broker (Call)
open Network
open Node (Effect Loop Routine)
open Program (Obeys)

structure Task.Keeps (K : Conduct Node.interface) (post : Trail → Ending → Prop) (t : Task) : Prop where
  obeys : Obeys K post t.trail t.work
  conforms : K.Conforms t.trail

structure Task.Orderly (node : Setup) (t : Task) : Prop where
  alone : ∀ o, t.job = .operation o → o.alters = none
  known : Known node t.job
  lives : t.Keeps (lifecycle node.shared t.job) (Concluded node.shared t.job)
  /-- A close may fail in ways that no other call does. -/
  rules : t.job ≠ .operation .shutdown →
    t.Keeps ⟨Credible, rule node.shared t.job⟩ (ending node.shared t.job)
  cares : t.Keeps (care node) (CareEnding node)

/-- What it took it sees to, as long as its brokers are open. -/
abbrev Task.Settles (node : Setup) (t : Task) : Prop := t.Keeps (sound node) (SettledEnding node)

structure Fits (node : Setup) (j : Job) (r : Effect) (a : r.Answer) : Prop where
  credible : j ≠ .operation .shutdown → Credible r a
  proper : Proper node r a

structure Asked (s : Node.Shared) (j : Job) (tr : Trail) (r : Effect) : Prop where
  permitted : Permitted s.config.group tr j r
  rule : j ≠ .operation .shutdown → rule s j tr r

variable {node : Setup} {j : Job} {r : Effect} {next : r.Answer → Routine Ending} {tr : Trail}
  {K : Conduct Node.interface} {post : Trail → Ending → Prop}

theorem Task.Keeps.answered (keeps : Task.Keeps K post ⟨j, .ask r next, tr⟩) {a : r.Answer}
    (credible : K.credible r a) : Task.Keeps K post ⟨j, next a, ⟨r, a⟩ :: tr⟩ where
  obeys := keeps.obeys.2 a credible
  conforms := ⟨keeps.obeys.1, credible, keeps.conforms⟩

theorem rule_of_conforms {newer older : Trail} {x : Exchange Node.interface}
    (conforms : K.Conforms (newer ++ x :: older)) : K.rule older x.1 := by
  induction newer with
  | nil => exact conforms.1
  | cons y newer ih => exact ih conforms.2.2

namespace Task.Orderly

theorem begun (alone : ∀ o, j = .operation o → o.alters = none) (known : Known node j) :
    (Task.begun node.shared j).Orderly node where
  alone := alone
  known := known
  lives := ⟨permitted_work alone, trivial⟩
  rules _ := ⟨job_obeys j, trivial⟩
  cares := ⟨care_work known, trivial⟩

theorem answered (orderly : Task.Orderly node ⟨j, .ask r next, tr⟩) {a : r.Answer}
    (fits : Fits node j r a) : Task.Orderly node ⟨j, next a, ⟨r, a⟩ :: tr⟩ where
  alone := orderly.alone
  known := orderly.known
  lives := orderly.lives.answered trivial
  rules other := (orderly.rules other).answered (fits.credible other)
  cares := orderly.cares.answered fits.proper

theorem loop_of_again {l : Loop} (orderly : Task.Orderly node ⟨j, .done (.again l), tr⟩) :
    ∃ l, j = .loop l := by
  by_cases shutdown : j = .operation .shutdown
  · subst shutdown
    exact absurd rfl (orderly.lives.obeys.1 l)
  · have ended : ending node.shared j tr (.again l) := (orderly.rules shutdown).obeys
    cases j with
    | loop l => exact ⟨l, rfl⟩
    | operation o => exact ended.elim
    | execution e => exact ended.elim

theorem again {l : Loop} (orderly : Task.Orderly node ⟨j, .done (.again l), tr⟩) :
    Task.Orderly node ⟨j, round node.shared l, tr⟩ := by
  obtain ⟨l', rfl⟩ := orderly.loop_of_again
  have rules := orderly.rules nofun
  obtain ⟨free, known⟩ : CareEnding node tr (.again l) := orderly.cares.obeys
  exact
    { alone := orderly.alone
      known := orderly.known
      lives := ⟨permitted_round l' l, orderly.lives.conforms⟩
      rules := fun _ => ⟨loop_obeys l' rules.obeys, rules.conforms⟩
      cares := ⟨care_round (known l rfl) free, orderly.cares.conforms⟩ }

theorem asks (orderly : Task.Orderly node ⟨j, .ask r next, tr⟩) : Asked node.shared j tr r where
  permitted := orderly.lives.obeys.1
  rule other := (orderly.rules other).obeys.1

theorem asked {t : Task} (orderly : t.Orderly node) {newer older : Trail} {x : Exchange Node.interface}
    (split : t.trail = newer ++ x :: older) : Asked node.shared t.job older x.1 where
  permitted := rule_of_conforms (split ▸ orderly.lives.conforms)
  rule other := rule_of_conforms (split ▸ (orderly.rules other).conforms)

theorem lawful (orderly : Task.Orderly node ⟨j, .ask r next, tr⟩) : Lawful node tr r :=
  orderly.cares.obeys.1.lawful

theorem jobs (orderly : Task.Orderly node ⟨j, .ask r next, tr⟩) :
    ∀ j' ∈ jobsOf r, (Task.begun node.shared j').Orderly node := by
  intro j' mem
  obtain ⟨i, hi⟩ := List.getElem?_of_mem mem
  refine begun (fun o ho => ?_) (known_of_jobsOf orderly.lawful hi)
  exact absurd (ho ▸ hi) not_operation_of_jobsOf

end Task.Orderly

namespace Task.Settles

theorem begun {l : Loop} : (Task.begun node.shared (.loop l)).Settles node :=
  ⟨.done ⟨.nil, nofun⟩, trivial⟩

theorem again {l : Loop} (settles : Task.Settles node ⟨j, .done (.again l), tr⟩) :
    Task.Settles node ⟨j, round node.shared l, tr⟩ := by
  obtain ⟨settled, -⟩ : SettledEnding node tr (.again l) := settles.obeys
  exact ⟨settled_round l settled, settles.conforms⟩

end Task.Settles

namespace Asked

variable {s : Node.Shared} {x : Exchange Node.interface} {b : BrokerId} {d : Hub.Deed}

theorem not_shutdown (asked : Asked s j tr x.1) (deals : Deals x b d) : j ≠ .operation .shutdown := by
  rintro rfl
  have permitted := asked.permitted
  cases deals with
  | call _ c _ stays =>
    cases permitted with
    | operation other => exact other rfl
    | close => exact stays rfl
  | read =>
    cases permitted with
    | operation other => exact other rfl

theorem loop_of_next {now : FireTime} (asked : Asked s j tr (.pending (.next now))) :
    ∃ l, j = .loop l := by
  by_cases shutdown : j = .operation .shutdown
  · subst shutdown
    cases asked.permitted with
    | operation other => exact absurd rfl other
  have within := asked.rule shutdown
  cases j with
  | loop l => exact ⟨l, rfl⟩
  | execution e =>
    have within : Executing e tr _ := within
    cases within
  | operation o =>
    cases o with
    | call service payload =>
      have within : Calling service payload tr _ := within
      cases within
    | add b service t | remove b service t =>
      have within : Altering service t tr _ := within
      cases within with
      | harmless h => cases h
    | _ =>
      have within : Managing tr _ := within
      cases within with
      | harmless h => cases h

theorem shutdown_of_join (asked : Asked s j tr .joinWorkers) : j = .operation .shutdown :=
  asked.permitted.requires

theorem reader {g consumer : String} {services : List String} {count : Nat} {block : Duration}
    {v : Except Error (List Delivery)} (asked : Asked s j tr x.1)
    (deals : Deals x b ⟨.call (.readGroup g consumer services count block), v⟩) :
    (∃ l, j = .loop l) ∧ g = s.config.group ∧
      ∃ stop, x = ⟨.readUnlessStopped b g consumer services count block stop, .value v⟩ := by
  obtain ⟨⟨_, _, _, _, isLoop⟩, own, _, _, other⟩ :=
    rule_read (a := x.2) (asked.rule (asked.not_shutdown deals)) deals.deal
  cases deals with
  | call => cases other
  | read _ _ _ _ _ _ stop => exact ⟨⟨_, isLoop⟩, own, stop, rfl⟩

theorem pushes {e : Node.Execution} (asked : Asked s (.execution e) tr x.1) (deals : Deals x b d) :
    ∃ key value ttl v, d = ⟨.call (.pushReply key value ttl), v⟩ := by
  have within : Executing e tr x.1 := asked.rule nofun
  cases deals with
  | read => cases within
  | call _ c a stays =>
    cases within with
    | push => exact ⟨_, _, _, a, rfl⟩

theorem handles {c : Call} {v : Except Error c.Value} (own : ∀ o, j ≠ .operation o)
    (asked : Asked s j tr x.1) (deals : Deals x b ⟨.call c, v⟩) :
    (∃ g consumer services count block, c = .readGroup g consumer services count block) ∨
      Recovery.Handles s.config.group c := by
  cases j with
  | operation o => exact absurd rfl (own o)
  | execution e =>
    obtain ⟨key, value, ttl, _, same⟩ := asked.pushes deals
    cases same
    exact .inr (.inr ⟨rfl, nofun⟩)
  | loop l =>
    cases deals with
    | read => exact .inl ⟨_, _, _, _, _, rfl⟩
    | call =>
      cases asked.permitted with
      | loop _ handles => exact .inr (handles b c rfl)

theorem write_of_harmless {c : Call} {v : Except Error c.Value} (h : harmless (.broker b c) = true)
    (key f : String) : Hub.Deed.write key f ⟨.call c, v⟩ = none := by
  cases c <;> first | rfl | cases h

theorem broker_of_duty {b' : BrokerId} {d : Delivery} {c : Call}
    (h : duty s b' d = some (.broker b c)) : b' = b := by
  unfold duty at h
  split at h
  · cases h
  · split at h
    · cases h
      rfl
    · cases h

theorem write {key f : String} {v : Option Bytes} (own : ∀ o, j ≠ .operation o)
    (asked : Asked s j tr x.1) (deals : Deals x b d) (write : d.write key f = some v) :
    (∃ t, Due tr t ∧ x.1 = .broker b (.hashTake (Key.delay t.service) (Decimal.ofInt64 t.fireAt))) ∨
      ∃ d ∈ given tr, duty s b d = some x.1 := by
  cases j with
  | operation o => exact absurd rfl (own o)
  | execution e =>
    obtain ⟨key, value, ttl, _, rfl⟩ := asked.pushes deals
    cases write
  | loop l =>
    have within := asked.rule nofun
    cases deals with
    | read => cases write
    | call _ c a stays =>
      cases l with
      | dispatch b' consumer services stop =>
        have within : Dispatching s b' tr (.broker b c) := within
        cases within with
        | harmless h =>
          rw [write_of_harmless h] at write
          cases write
        | route rest isDuty next =>
          have owed : Effect.broker b c ∈ duties s b' tr :=
            next ▸ List.mem_append_right _ List.mem_cons_self
          obtain ⟨d, given, duty⟩ := List.mem_filterMap.mp owed
          obtain rfl := broker_of_duty duty
          exact .inr ⟨d, given, duty⟩
      | fire stop last =>
        have within : Firing s tr (.broker b c) := within
        cases within with
        | harmless h =>
          rw [write_of_harmless h] at write
          cases write
        | claim _ t due => exact .inl ⟨t, due, rfl⟩

end Asked

end BrokeredCalls.Shutdown
