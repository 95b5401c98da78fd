import BrokeredCalls.Proofs.Lifetime.World

/-!
What one spawn does. It marks the node and makes ready, and in its last step it launches all loops at once;
if it cannot make ready it takes the mark away, and launches none.
-/

namespace BrokeredCalls.Lifetime

open Broker (Call createGroupAgain ensureGroup)
open Network (Credible Ending Job Operation Trail)
open Node (Attempt Effect Loop Routine Shared Source)
open Program (Asks Obeys)
open Provisioning (listing)
open Shutdown (Ordinary holds ordinary)

def Plain (e : Error) : Prop := e.isTransport = true ∨ ∃ q, e = .missingQueue q

theorem Plain.not_conflict {e : Error} (plain : Plain e) (what : String) : e ≠ .configConflict what := by
  rintro rfl
  rcases plain with transport | ⟨q, same⟩
  · cases transport
  · cases same

section Errors

variable {I : Interface} {α β : Type} {credible : (r : I.Request) → I.Answer r → Prop}

def Plainly (credible : (r : I.Request) → I.Answer r → Prop) (p : Fallible I Error α) : Prop :=
  ∀ tr, Obeys ⟨credible, fun _ _ => True⟩ (fun _ r => ∀ e, r = .error e → Plain e) tr p.run

namespace Plainly

theorem pure (a : α) : Plainly credible (Pure.pure a : Fallible I Error α) := fun _ => .done nofun

theorem lift (p : Program I α) : Plainly credible (ExceptT.lift p : Fallible I Error α) := fun _ =>
  .lift (((Asks.of_forall (fun _ => trivial) p).allowed fun _ _ _ => trivial).mono fun _ _ _ => nofun)

theorem bind {p : Fallible I Error α} {f : α → Fallible I Error β} (first : Plainly credible p)
    (rest : ∀ a, Plainly credible (f a)) : Plainly credible (p >>= f) := by
  intro tr
  refine .bindExcept ((first tr).mono fun tr r plain => ?_)
  cases r with
  | ok a => exact rest a tr
  | error e =>
    rintro _ ⟨⟩
    exact plain e rfl

end Plainly

abbrev Answered (c : Call) (a : Except Error c.Value) : Prop := ∀ e, a = .error e → Plain e

theorem plainly_perform (c : Call) : Plainly (I := Broker.interface) Answered (Broker.perform c) :=
  .bind (fun _ => .request trivial fun _ plain => plain) fun _ => .pure ()

theorem plainly_createGroupAgain (q g : String) :
    Plainly (I := Broker.interface) Answered (createGroupAgain q g) := by
  intro tr
  refine .bindExcept (.lift (.request trivial fun created plain => ?_))
  cases created with
  | ok _ => exact .done nofun
  | error e =>
    cases e with
    | missingQueue q' => exact (plainly_perform _).bind (fun _ => plainly_perform _) _
    | _ =>
      refine .done ?_
      rintro _ ⟨⟩
      exact plain _ rfl

theorem plainly_listing (q g : String) :
    Plainly (I := Broker.interface) Answered (listing q g) := by
  intro tr
  refine .bindExcept (.lift (.request trivial fun listed plain => ?_))
  cases listed with
  | ok groups =>
    dsimp only
    split
    · exact .done nofun
    · exact plainly_createGroupAgain q g _
  | error e =>
    cases e with
    | missingQueue q' => exact plainly_createGroupAgain q g _
    | _ =>
      refine .done ?_
      rintro _ ⟨⟩
      exact plain _ rfl

theorem plainly_ensureGroup (q g : String) :
    Plainly (I := Broker.interface) Answered (ensureGroup q g) := by
  rw [Provisioning.ensureGroup_eq]
  refine .bind (fun _ => .request trivial fun _ plain => plain) fun found => ?_
  cases found with
  | true => exact plainly_listing q g
  | false => exact .bind (plainly_perform _) fun _ => plainly_listing q g

theorem Plainly.onBroker {p : Fallible Broker.interface Error α} (b : BrokerId)
    (plainly : Plainly (I := Broker.interface) Answered p) :
    Plainly (I := Node.interface) Credible (Node.onBrokerAttempt b p) := by
  have expand (p : Program Broker.interface (Except Error α)) (old : Trace Broker.interface)
      (h : Obeys ⟨Answered, fun _ _ => True⟩ (fun _ r => ∀ e, r = .error e → Plain e) old p)
      (tr : Trail) : Obeys ⟨Credible, fun _ _ => True⟩ (fun _ r => ∀ e, r = .error e → Plain e) tr
        (p.expand fun c => Node.ask (.broker b c)) := by
    induction p generalizing old tr with
    | done r => exact h
    | ask c next ih =>
      refine ⟨trivial, fun a plain => ih a _ (h.2 a ?_) _⟩
      rintro e rfl
      exact plain
  exact fun tr => expand p.run [] (plainly []) tr

end Errors

section Ready

variable {s : Shared}

theorem plainly_callOn (b : BrokerId) (c : Call) :
    Plainly (I := Node.interface) Credible (Node.callOn b c) := by
  refine fun _ => .request trivial fun a credible => ?_
  rintro e rfl
  exact credible

theorem plainly_scanServices (b : BrokerId) (services : List String) :
    Plainly (I := Node.interface) Credible (Node.Deferred.scanServices b services) := by
  induction services with
  | nil => exact .pure _
  | cons service rest ih => exact .bind (plainly_callOn b _) fun _ => .bind ih fun _ => .pure _

theorem plainly_scan (sources : List Source) :
    Plainly (I := Node.interface) Credible (Node.Deferred.scan sources) := by
  induction sources with
  | nil => exact .pure _
  | cons source rest ih =>
    exact .bind (.lift _) fun services => .bind (plainly_scanServices source.broker services) fun _ =>
      .bind ih fun _ => .pure _

theorem plainly_reload : Plainly (I := Node.interface) Credible (Node.Deferred.reload s) :=
  .bind (plainly_scan s.sources) fun _ => .lift _

theorem plainly_provision (b : BrokerId) (services : List String) :
    Plainly (I := Node.interface) Credible (Node.Dispatch.provision s b services) := by
  induction services with
  | nil => exact .pure _
  | cons service rest ih => exact .bind ((plainly_ensureGroup service _).onBroker b) fun _ => ih

end Ready

def Idle (tr : Trail) : Prop := ∀ loops u, (⟨.launch loops, u⟩ : Exchange Node.interface) ∉ tr

structure Listed (sources : List Source) (tr : Trail) (served : List (Source × List String)) :
    Prop where
  among : (served.map Prod.fst).Sublist sources
  told : ∀ p ∈ served, (⟨.servicesOn p.1.name, p.2⟩ : Exchange Node.interface) ∈ tr

def loopsOf (stop : SignalId) (now : Nat) (served : List (Source × List String)) : List Loop :=
  .fire stop now :: served.map fun (source, services) =>
    .dispatch source.broker source.consumer services stop

def Chosen (s : Shared) (tr : Trail) (loops : List Loop) : Prop :=
  ∃ stop now served, Listed s.sources tr served ∧ loops = loopsOf stop now served

structure Underway (tr : Trail) : Prop where
  held : holds tr = true
  idle : Idle tr

inductive Spawning (s : Shared) (tr : Trail) : Effect → Prop
  | claim (first : tr = []) : Spawning s tr .claimSpawn
  | work {r : Effect} (h : ordinary r = true) : Spawning s tr r
  | release (underway : Underway tr) : Spawning s tr .releaseSpawn
  | launch (loops : List Loop) (underway : Underway tr) (chosen : Chosen s tr loops) :
    Spawning s tr (.launch loops)

inductive Returned (s : Shared) : Trail → Except Error Unit → Prop
  | refused : Returned s [⟨.claimSpawn, false⟩] (.error (.configConflict "node already spawned"))
  | failed {tr : Trail} {e : Error} (underway : Underway tr) (plain : Plain e) :
    Returned s (⟨.releaseSpawn, ()⟩ :: tr) (.error e)
  | launched {tr : Trail} {loops : List Loop} (underway : Underway tr) (chosen : Chosen s tr loops) :
    Returned s (⟨.launch loops, ()⟩ :: tr) (.ok ())

abbrev spawning (s : Shared) : Conduct Node.interface := ⟨Credible, Spawning s⟩

variable {s : Shared} {tr tr' : Trail}

theorem Underway.cons {r : Effect} (underway : Underway tr) (h : ordinary r = true) (a : r.Answer) :
    Underway (⟨r, a⟩ :: tr) where
  held := (Shutdown.holds_of_ordinary h a).trans underway.held
  idle loops u mem := by
    rcases List.mem_cons.mp mem with now | before
    · cases now
      cases h
    · exact underway.idle loops u before

theorem underway_of_ordinary {α : Type} {p : Attempt α} (asks : Ordinary p.run)
    (plainly : Plainly (I := Node.interface) Credible p) (underway : Underway tr) :
    Obeys (spawning s) (fun tr' r => (tr <:+ tr' ∧ Underway tr') ∧ ∀ e, r = .error e → Plain e) tr
      p.run := by
  have keeps : Obeys (spawning s) (fun tr' _ => tr <:+ tr' ∧ Underway tr') tr p.run :=
    asks.obeys (fun _ _ _ h => .work h)
      (fun _ _ a kept h => ⟨kept.1.trans (List.suffix_cons _ _), kept.2.cons h a⟩)
      ⟨List.suffix_refl tr, underway⟩
  exact keeps.both (plainly tr)

theorem Listed.later {sources : List Source} {served : List (Source × List String)}
    (listed : Listed sources tr served) (suffix : tr <:+ tr') : Listed sources tr' served :=
  ⟨listed.among, fun p hp => suffix.subset (listed.told p hp)⟩

theorem listed_provisionAll {sources : List Source} (underway : Underway tr) :
    Obeys (spawning s) (fun tr' r => (tr <:+ tr' ∧ Underway tr') ∧ match r with
      | .ok served => Listed sources tr' served
      | .error e => Plain e) tr (Node.provisionAll s sources).run := by
  induction sources generalizing tr with
  | nil => exact .done ⟨⟨List.suffix_refl tr, underway⟩, .slnil, List.forall_mem_nil _⟩
  | cons source rest ih =>
    refine .bindExcept (.lift (.request (.work rfl) fun services _ => ?_))
    have underway₁ := underway.cons (r := .servicesOn source.name) rfl services
    dsimp only
    split
    · refine (ih underway₁).mono fun tr' r hr => ⟨⟨(List.suffix_cons _ _).trans hr.1.1, hr.1.2⟩, ?_⟩
      obtain ⟨-, hr⟩ := hr
      cases r with
      | ok served => exact ⟨hr.among.cons _, hr.told⟩
      | error e => exact hr
    · refine .bindExcept ((underway_of_ordinary (Shutdown.ordinary_provision source.broker services)
        (plainly_provision source.broker services) underway₁).mono fun tr₂ r hr => ?_)
      obtain ⟨⟨suffix, underway₂⟩, plain⟩ := hr
      cases r with
      | error e => exact ⟨⟨(List.suffix_cons _ _).trans suffix, underway₂⟩, plain e rfl⟩
      | ok _ =>
        refine .bindExcept ((ih underway₂).mono fun tr₃ r hr => ?_)
        obtain ⟨⟨suffix', underway₃⟩, hr⟩ := hr
        have all := suffix.trans suffix'
        cases r with
        | error e => exact ⟨⟨(List.suffix_cons _ _).trans all, underway₃⟩, hr⟩
        | ok served =>
          refine .done ⟨⟨(List.suffix_cons _ _).trans all, underway₃⟩, hr.among.cons_cons _, ?_⟩
          exact List.forall_mem_cons.mpr ⟨all.subset List.mem_cons_self, hr.told⟩

theorem returned_spawn : Obeys (spawning s) (Returned s) [] (Node.spawn s).run := by
  refine .bindExcept (.lift (.request (.claim rfl) fun claimed _ => ?_))
  cases claimed with
  | false => exact .done .refused
  | true =>
    have underway : Underway [⟨.claimSpawn, true⟩] := ⟨rfl, by simp [Idle]⟩
    have ready : Obeys (spawning s) (fun tr r => match r with
        | .ok _ => Returned s tr (.ok ())
        | .error e => Underway tr ∧ Plain e) [⟨.claimSpawn, true⟩] (Node.startWorkers s).run := by
      refine .bindExcept ((listed_provisionAll underway).mono fun tr₁ r hr => ?_)
      obtain ⟨⟨-, underway₁⟩, hr⟩ := hr
      cases r with
      | error e => exact ⟨underway₁, hr⟩
      | ok served =>
        refine .bindExcept ((underway_of_ordinary Shutdown.ordinary_reload plainly_reload
          underway₁).mono fun tr₂ r hr' => ?_)
        obtain ⟨⟨suffix, underway₂⟩, plain⟩ := hr'
        cases r with
        | error e => exact ⟨underway₂, plain e rfl⟩
        | ok count =>
          refine .bindExcept (.lift (.request (.work rfl) fun stop _ => ?_))
          refine .bindExcept (.lift (.request (.work rfl) fun now _ => ?_))
          have underway₃ := (underway₂.cons (r := .subscribe) rfl stop).cons (r := .clock) rfl now
          have chosen : Chosen s (⟨.clock, now⟩ :: ⟨.subscribe, stop⟩ :: tr₂) (loopsOf stop now served) :=
            ⟨stop, now, served, hr.later (suffix.trans ((List.suffix_cons _ _).trans
              (List.suffix_cons _ _))), rfl⟩
          exact .lift (.request (.launch _ underway₃ chosen) fun _ _ => .launched underway₃ chosen)
    refine .bindExcept (.lift (ready.mono fun tr r hr => ?_))
    cases r with
    | ok _ => exact .done hr
    | error e =>
      exact .bindExcept (.lift (.request (.release hr.1) fun _ _ => .done (.failed hr.1 hr.2)))

end BrokeredCalls.Lifetime
