import BrokeredCalls.Proofs.Network.Claims

/-!
Who changes the hash of a service. A dispatch loop makes the changes that its entries ask for, one
each and in order; nobody else makes any, unless a call is due or a scheduler is asked directly.
-/

namespace BrokeredCalls

def Envelope.change (e : Envelope) : Option Hub.Change :=
  e.fireAt.map fun t => (Decimal.ofInt64 t, if e.payload.isEmpty then none else some e.payload)

namespace Network

open Node (Effect Execution Shared)

variable {net : NodeId → Setup} {S : State} {s : Shared} {b : BrokerId} {H : List Event}
  {u : TaskId} {n : NodeId} {tr : Trail} {key q : String}

def Asked (key : String) : Effect → Option Hub.Change
  | .broker _ (.hashSet k f v) => if k = key then some (f, some v) else none
  | .broker _ (.hashDelete k f) => if k = key then some (f, none) else none
  | _ => none

def made (key : String) (x : Exchange Node.interface) : Option Hub.Change :=
  (deal x).bind (Hub.Deed.change key)

def failed : Exchange Node.interface → Bool
  | ⟨.broker _ _, .error _⟩ => true
  | _ => false

theorem asked_duty (s : Shared) (b : BrokerId) (q : String) (d : Delivery) :
    (duty s b d).bind (Asked (Key.delay q)) =
      if d.envelope.service = q then d.envelope.change else none := by
  unfold duty Envelope.change
  cases ht : d.envelope.fireAt with
  | none =>
    cases d.envelope.isPlaceholder with
    | true => simp
    | false => simp [Asked]
  | some t =>
    have hp : d.envelope.isPlaceholder = false := by simp [Envelope.isPlaceholder, ht]
    have hkey : (Key.delay d.envelope.service = Key.delay q) = (d.envelope.service = q) :=
      propext ⟨Key.delay_injective, congrArg Key.delay⟩
    have htomb : d.envelope.isTombstone = d.envelope.payload.isEmpty := by
      simp [Envelope.isTombstone, ht]
    simp only [hp, htomb]
    cases d.envelope.payload.isEmpty with
    | true => simp [Asked, hkey]
    | false => simp [Asked, hkey]

theorem made_of_harmless {r : Effect} (a : r.Answer) (h : harmless r = true) :
    made key ⟨r, a⟩ = none := by
  cases r with
  | broker b c =>
    cases c with
    | hashSet | hashTake | hashDelete => cases h
    | _ => cases a <;> rfl
  | readUnlessStopped => cases h
  | _ => rfl

theorem made_of_read {b : BrokerId} {g consumer : String} {services : List String} {count : Nat}
    {block : Duration} {stop : SignalId} (a : Node.Ended (Except Error (List Delivery))) :
    made key ⟨.readUnlessStopped b g consumer services count block stop, a⟩ = none := by
  cases a <;> rfl

theorem made_of_duty {r : Effect} {a : r.Answer} (h : isDuty r = true)
    (ok : failed ⟨r, a⟩ = false) : made key ⟨r, a⟩ = Asked key r := by
  cases r with
  | broker b c =>
    cases c with
    | hashSet | hashDelete =>
      cases a with
      | ok v => rfl
      | error e => cases ok
    | _ => cases h
  | start e => rfl
  | _ => cases h

theorem made_eq_routed {consumer : String} {services : List String} {stop : SignalId}
    (conforms : Conduct.Conforms
      ⟨Credible, rule s (.loop (.dispatch b consumer services stop))⟩ tr)
    (ok : ∀ x ∈ tr, failed x = false) (key : String) :
    (tr.filterMap (made key)).reverse = (routed tr).filterMap (Asked key) := by
  induction tr with
  | nil => rfl
  | cons x tr ih =>
    obtain ⟨r, a⟩ := x
    obtain ⟨hrule, -, hconforms⟩ := conforms
    have hold := ih hconforms fun x hx => ok x (List.mem_cons_of_mem _ hx)
    have quiet (hmade : made key ⟨r, a⟩ = none) (hduty : isDuty r = false) :
        ((⟨r, a⟩ :: tr).filterMap (made key)).reverse =
          (routed (⟨r, a⟩ :: tr)).filterMap (Asked key) := by
      rw [List.filterMap_cons_none hmade, hold, routed, if_neg (by simp [hduty])]
    change Dispatching s b tr r at hrule
    cases hrule with
    | harmless h =>
      refine quiet (made_of_harmless a h) ?_
      cases r with
      | broker b' c => cases c <;> first | rfl | cases h
      | start => cases h
      | _ => rfl
    | read => exact quiet (made_of_read a) rfl
    | track t payload written => exact quiet rfl rfl
    | route rest hduty next =>
      have hmade : made key ⟨r, a⟩ = Asked key r :=
        made_of_duty hduty (ok _ List.mem_cons_self)
      rw [routed, if_pos hduty, List.filterMap_append, ← hold]
      cases hasked : Asked key r with
      | none =>
        rw [List.filterMap_cons_none (hmade.trans hasked)]
        simp [hasked]
      | some c =>
        rw [List.filterMap_cons_some (hmade.trans hasked), List.reverse_cons]
        simp [hasked]

theorem rule_change {job : Job} {r : Effect} {a : r.Answer} {c : Hub.Change} (h : rule s job tr r)
    (hmade : made (Key.delay q) ⟨r, a⟩ = some c) :
    (∃ b consumer services stop, job = .loop (.dispatch b consumer services stop)) ∨
      (∃ o, job = .operation o ∧ o.alters = some q) ∨
        ∃ b f v, (⟨r, a⟩ : Exchange Node.interface) =
          ⟨.broker b (.hashTake (Key.delay q) f), .ok (some v)⟩ := by
  rcases rule_cases h with hh | h
  · rw [made_of_harmless a hh] at hmade
    cases hmade
  · cases h with
    | read | route => exact .inl ⟨_, _, _, _, rfl⟩
    | write o b service field payload alters =>
      cases a with
      | error e => cases hmade
      | ok v =>
        obtain ⟨hkey, -⟩ := Option.ite_some_none_eq_some.mp hmade
        exact .inr (.inl ⟨o, rfl, alters.trans (congrArg some (Key.delay_injective hkey))⟩)
    | delete o b service field alters =>
      cases a with
      | error e => cases hmade
      | ok v =>
        obtain ⟨hkey, -⟩ := Option.ite_some_none_eq_some.mp hmade
        exact .inr (.inl ⟨o, rfl, alters.trans (congrArg some (Key.delay_injective hkey))⟩)
    | claim b task due =>
      cases a with
      | error e => cases hmade
      | ok v =>
        cases v with
        | none => cases hmade
        | some v =>
          obtain ⟨hkey, -⟩ := Option.ite_some_none_eq_some.mp hmade
          exact .inr (.inr ⟨b, _, v, by rw [hkey]⟩)
    | push | invoke | start | pending => cases hmade

def applied (q : String) (H : List Event) : List Hub.Change := Hub.changes (Key.delay q) (deeds H)

/-- The changes that the entries of a queue ask for, in the order in which they were appended since a
group was created. -/
def announced (g q : String) (H : List Event) : List Hub.Change :=
  (Hub.appendedSince g q (deeds H)).filterMap (·.2.change)

theorem applied_eq (q : String) (H : List Event) :
    applied q H = ((exchanges H).filterMap (made (Key.delay q))).reverse := by
  have hmade : (exchanges H).filterMap (made (Key.delay q)) =
      (deeds H).filterMap (Hub.Deed.change (Key.delay q)) := by
    unfold deeds
    rw [List.filterMap_filterMap]
    rfl
  unfold applied
  rw [hmade]
  induction deeds H with
  | nil => rfl
  | cons d ds ih =>
    unfold Hub.changes
    rw [ih]
    cases hc : d.change (Key.delay q) with
    | none =>
      rw [List.filterMap_cons_none hc]
      simp
    | some c =>
      rw [List.filterMap_cons_some hc, List.reverse_cons]
      rfl

theorem perm_applied (q : String) (H : List Event) :
    (applied q H).Perm
      ((tasksOf H).flatMap fun u => (traceOf u H).filterMap (made (Key.delay q))) := by
  rw [applied_eq, ← List.filterMap_flatMap]
  exact (List.reverse_perm _).trans ((perm_tasksOf H).symm.filterMap _)

theorem sublist_exchanges (u : TaskId) (H : List Event) : (traceOf u H).Sublist (exchanges H) := by
  induction H with
  | nil => exact .slnil
  | cons e H ih =>
    cases e with
    | began n o => exact ih
    | served t r a =>
      unfold traceOf exchanges
      split
      · exact ih.cons_cons _
      · exact ih.cons _

end Network
end BrokeredCalls
