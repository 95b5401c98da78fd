import BrokeredCalls.Proofs.Hub.Delivery
import BrokeredCalls.Proofs.Hub.Replies

/-!
One look of a call that waits: what it finds, and what it leaves to find for others. A look that finds
nothing shows that every queue it reads is there, carries the group and was read to its end, or that
the list it pops from holds no live reply; and no call but those that give notice changes that.
-/

namespace BrokeredCalls.Hub

open Broker (Call)

/-- What a call that waits answers when its time is up; nothing for the others. -/
def empty? : (c : Call) → Option c.Value
  | .readGroup .. => some []
  | .popReply .. => some none
  | _ => none

def look (h : Hub) (now : Moment) : (c : Call) → Option (Except Error c.Value) × Hub
  | .readGroup group _ queues count _ =>
    match h.read group queues count with
    | .error e => (some (.error e), h)
    | .ok ([], h) => (none, h)
    | .ok (ds, h) => (some (.ok ds), h)
  | .popReply key _ =>
    match h.popReply now key with
    | (some v, h) => (some (.ok (some v)), h)
    | (none, h) => (none, h)
  | c => match h.serve now now.clock c with
    | some (r, h) => (some r, h)
    | none => (none, h)

theorem serve_eq_look (h : Hub) (now : Moment) (deadline : Nat) (c : Call) :
    h.serve now deadline c = match h.look now c with
      | (some r, h') => some (r, h')
      | (none, h') =>
        if deadline ≤ now.clock then (empty? c).map fun v => (.ok v, h') else none := by
  cases c with
  | readGroup group consumer queues count block =>
    simp only [serve, look, empty?]
    cases h.read group queues count with
    | error e => rfl
    | ok taken =>
      obtain ⟨ds, h'⟩ := taken
      cases ds <;> rfl
  | popReply key timeout =>
    simp only [serve, look, empty?]
    obtain ⟨v, h'⟩ := h.popReply now key
    cases v <;> rfl
  | createGroup queue group =>
    simp only [serve, look]
    cases h.createGroup queue group <;> rfl
  | _ => rfl

def Drained (h : Hub) (queue group : String) : Prop :=
  ∃ Q cursor, h.queues.find? queue = some Q ∧ Q.groups.find? group = some cursor ∧
    ∀ e ∈ Q.entries, e.id ≤ cursor

def Bare (h : Hub) (now : Moment) (key : String) : Prop :=
  ∀ l, h.liveList? now key = some l → l.values = []

/-- Nothing that a call which waits could end with. -/
def Lacks (h : Hub) (now : Moment) : Call → Prop
  | .readGroup group _ queues _ _ => ∀ q ∈ queues, h.Drained q group
  | .popReply key _ => h.Bare now key
  | _ => False

/-- Whoever found nothing before finds nothing after. -/
structure Calm (h h' : Hub) : Prop where
  drained : ∀ q g, h.Drained q g → h'.Drained q g
  bare : ∀ now key, h.Bare now key → h'.Bare now key

namespace Calm

theorem refl (h : Hub) : Calm h h := ⟨fun _ _ => id, fun _ _ => id⟩

theorem trans {h h₁ h' : Hub} (k : Calm h h₁) (k' : Calm h₁ h') : Calm h h' :=
  ⟨fun q g hd => k'.drained q g (k.drained q g hd),
    fun now key hb => k'.bare now key (k.bare now key hb)⟩

theorem lacks {h h' : Hub} (k : Calm h h') {now : Moment} {c : Call} (hl : h.Lacks now c) :
    h'.Lacks now c := by
  cases c with
  | readGroup group consumer queues count block => exact fun q hq => k.drained q group (hl q hq)
  | popReply key timeout => exact k.bare now key hl
  | _ => exact hl

theorem of_same {h h' : Hub} (hq : h'.queues = h.queues) (hl : h'.lists = h.lists) : Calm h h' := by
  constructor
  · intro q g
    unfold Drained
    rw [hq]
    exact id
  · intro now key
    unfold Bare liveList?
    rw [hl]
    exact id

theorem of_set {h : Hub} {queue : String} {Q Q' : Queue} (there : h.queues.find? queue = some Q)
    (entries : Q'.entries = Q.entries) (read : ∀ g cursor, Q.groups.find? g = some cursor →
      (∀ e ∈ Q.entries, e.id ≤ cursor) → Q'.groups.find? g = some cursor) :
    Calm h { h with queues := h.queues.set queue Q' } := by
  constructor
  · rintro q g ⟨Q₀, cursor, hfind, hcursor, hall⟩
    by_cases hq : q = queue
    · subst hq
      obtain rfl := Option.some.inj (there.symm.trans hfind)
      refine ⟨Q', cursor, by simp [Table.find?_set], read g cursor hcursor hall, ?_⟩
      rw [entries]
      exact hall
    · exact ⟨Q₀, cursor, by simp [Table.find?_set, hq, hfind], hcursor, hall⟩
  · exact fun _ _ => id

end Calm

theorem read_of_fresh {Q : Queue} {cursor : EntryId} {count : Nat} (pos : 1 ≤ count)
    (none : Q.fresh cursor count = []) : ∀ e ∈ Q.entries, e.id ≤ cursor := by
  intro e he hlt
  have hfilter : e ∈ Q.entries.filter fun e => cursor < e.id := by simp [he, hlt]
  unfold Queue.fresh at none
  rcases List.take_eq_nil_iff.mp none with hzero | hnil
  · omega
  · rw [hnil] at hfilter
    cases hfilter

theorem calm_take? {h : Hub} {queue : String} {Q Q' : Queue} {g : String} {count : Nat}
    {es : List Entry} (there : h.queues.find? queue = some Q)
    (ht : Q.take? g count = some (es, Q')) :
    Calm h { h with queues := h.queues.set queue Q' } := by
  obtain ⟨last, hlast, rfl, ⟨-, rfl⟩ | ⟨newest, hmem, rfl⟩⟩ := Queue.take?_cases ht
  · exact .of_set there rfl fun _ _ hcursor _ => hcursor
  · refine .of_set there rfl fun g' cursor hcursor hall => ?_
    by_cases hg : g' = g
    -- A group that has read all is handed nothing.
    · subst hg
      obtain rfl := Option.some.inj (hlast.symm.trans hcursor)
      obtain ⟨hentry, hlt⟩ := Queue.mem_fresh hmem
      exact absurd hlt (hall newest hentry)
    · simp [Table.find?_set, hg, hcursor]

theorem calm_takeAll (g : String) (count : Nat) (names : List String) (h : Hub) :
    Calm h (takeAll g count names h).2 := by
  induction names generalizing h with
  | nil => exact .refl h
  | cons name names ih =>
    unfold takeAll
    split
    · next es Q' htake =>
      obtain ⟨Q, there, htake⟩ := Option.bind_eq_some_iff.mp htake
      exact (calm_take? there htake).trans (ih _)
    · exact ih h

theorem carries_iff {h : Hub} {queue group : String} :
    h.carries queue group = true ↔
      ∃ Q cursor, h.queues.find? queue = some Q ∧ Q.groups.find? group = some cursor := by
  unfold carries Table.contains
  cases h.queues.find? queue with
  | none => simp
  | some Q => simp [Option.isSome_iff_exists]

theorem exists_take? {Q : Queue} {g : String} {cursor : EntryId}
    (hcursor : Q.groups.find? g = some cursor) (count : Nat) :
    ∃ Q', Q.take? g count = some (Q.fresh cursor count, Q') := by
  unfold Queue.take?
  rw [hcursor]
  dsimp only [Option.bind_eq_bind, Option.bind_some]
  cases (Q.fresh cursor count).getLast? with
  | some newest => exact ⟨_, rfl⟩
  | none => exact ⟨_, rfl⟩

theorem drained_of_takeAll {g : String} {count : Nat} (pos : 1 ≤ count) {names : List String}
    {h : Hub} (ht : (takeAll g count names h).1 = [])
    (carried : ∀ q ∈ names, h.carries q g = true) : ∀ q ∈ names, h.Drained q g := by
  induction names generalizing h with
  | nil => exact nofun
  | cons name names ih =>
    obtain ⟨Q, cursor, there, hcursor⟩ := carries_iff.mp (carried name List.mem_cons_self)
    obtain ⟨Q', htake⟩ := exists_take? hcursor count
    have hbind : (h.queues.find? name).bind (·.take? g count) = some (Q.fresh cursor count, Q') := by
      rw [there]
      exact htake
    unfold takeAll at ht
    rw [hbind] at ht
    obtain ⟨hfresh, hrest⟩ := List.append_eq_nil_iff.mp ht
    have hfresh := List.map_eq_nil_iff.mp hfresh
    obtain ⟨-, -, -, ⟨-, rfl⟩ | ⟨newest, hmem, -⟩⟩ := Queue.take?_cases htake
    -- The queue is set to what it was.
    · have same (q : String) : (h.queues.set name Q').find? q = h.queues.find? q := by
        rw [Table.find?_set]
        split
        · next heq => rw [heq, there]
        · rfl
      refine List.forall_mem_cons.mpr ⟨⟨Q', cursor, there, hcursor, read_of_fresh pos hfresh⟩, ?_⟩
      intro q hq
      have hq' := ih hrest (fun q hq => ?_) q hq
      · unfold Drained at hq' ⊢
        rwa [same] at hq'
      · have hc := carried q (List.mem_cons_of_mem _ hq)
        unfold carries at hc ⊢
        rwa [same]
    · rw [hfresh] at hmem
      cases hmem

theorem liveList?_eq_some_iff {h : Hub} {now : Moment} {key : String} {l : ReplyList} :
    h.liveList? now key = some l ↔ h.lists.find? key = some l ∧ now.clock < l.expiresAt := by
  unfold liveList?
  cases h.lists.find? key with
  | none => simp
  | some l' =>
    by_cases hdue : l'.expiresAt ≤ now.clock
    · simp only [hdue, if_true, Option.some.injEq, reduceCtorEq, false_iff]
      rintro ⟨rfl, hlt⟩
      omega
    · simp only [hdue, if_false, Option.some.injEq]
      constructor
      · rintro rfl
        exact ⟨rfl, by omega⟩
      · exact fun h => h.1

theorem Bare.later {h : Hub} {now later : Moment} {key : String} (hb : h.Bare now key)
    (le : now.clock ≤ later.clock) : h.Bare later key := by
  intro l hlive
  obtain ⟨hfind, hlt⟩ := liveList?_eq_some_iff.mp hlive
  exact hb l (liveList?_eq_some_iff.mpr ⟨hfind, by omega⟩)

theorem Lacks.later {h : Hub} {now later : Moment} {c : Call} (hl : h.Lacks now c)
    (le : now.clock ≤ later.clock) : h.Lacks later c := by
  cases c with
  | readGroup => exact hl
  | popReply => exact Bare.later hl le
  | _ => exact hl

theorem calm_erase (h : Hub) (key : String) : Calm h { h with lists := h.lists.erase key } := by
  refine ⟨fun _ _ => id, fun now key' hb l hlive => ?_⟩
  obtain ⟨hfind, hlt⟩ := liveList?_eq_some_iff.mp hlive
  rw [Table.find?_erase] at hfind
  split at hfind
  · cases hfind
  · exact hb l (liveList?_eq_some_iff.mpr ⟨hfind, hlt⟩)

theorem calm_shorten {h : Hub} {key : String} {v : Bytes} {vs : List Bytes} {t : Nat}
    (there : h.lists.find? key = some ⟨v :: vs, t⟩) :
    Calm h { h with lists := h.lists.set key ⟨vs, t⟩ } := by
  refine ⟨fun _ _ => id, fun now key' hb l hlive => ?_⟩
  obtain ⟨hfind, hlt⟩ := liveList?_eq_some_iff.mp hlive
  rw [Table.find?_set] at hfind
  split at hfind
  · next heq =>
    subst heq
    obtain rfl := Option.some.inj hfind
    cases hb ⟨v :: vs, t⟩ (liveList?_eq_some_iff.mpr ⟨there, hlt⟩)
  · exact hb l (liveList?_eq_some_iff.mpr ⟨hfind, hlt⟩)

theorem calm_popReply (h : Hub) (now : Moment) (key : String) : Calm h (h.popReply now key).2 := by
  unfold popReply
  split
  · exact calm_erase h key
  · exact calm_erase h key
  · exact calm_erase h key
  · next hlive => exact calm_shorten (liveList?_eq_some_iff.mp hlive).1

theorem bare_of_popReply {h h' : Hub} {now : Moment} {key : String}
    (hpop : h.popReply now key = (none, h')) : h.Bare now key := by
  intro l hlive
  unfold popReply at hpop
  rw [hlive] at hpop
  obtain ⟨values, expiresAt⟩ := l
  match values with
  | [] => rfl
  | [v] => cases hpop
  | v :: w :: vs => cases hpop

theorem waits_of_look {h h' : Hub} {now : Moment} {c : Call} (hl : h.look now c = (none, h')) :
    empty? c ≠ none := by
  cases c with
  | readGroup | popReply => exact nofun
  | createGroup queue group =>
    simp only [look, serve] at hl
    cases hc : h.createGroup queue group <;> simp [hc] at hl
  | _ => cases hl

theorem wakes_of_waits {c : Call} (hw : empty? c ≠ none) : wakes c = false := by
  cases c with
  | append | appendPlaceholder | pushReply | close => exact absurd rfl hw
  | _ => rfl

theorem lacks_of_look {h h' : Hub} {now : Moment} {c : Call} (hl : h.look now c = (none, h')) :
    h.Lacks now c := by
  cases c with
  | readGroup group consumer queues count block =>
    simp only [look] at hl
    split at hl
    · cases hl
    · next hread =>
      unfold read at hread
      split at hread
      · cases hread
      · next hall =>
        refine drained_of_takeAll (Nat.le_max_right count 1)
          (congrArg Prod.fst (Except.ok.inj hread)) fun q hq => ?_
        simpa using List.find?_eq_none.mp hall q hq
    · cases hl
  | popReply key timeout =>
    simp only [look] at hl
    split at hl
    · cases hl
    · next hpop => exact bare_of_popReply hpop
  | _ => exact absurd rfl (waits_of_look hl)

theorem calm_createGroup {h h' : Hub} {queue group : String}
    (hc : h.createGroup queue group = .ok h') : Calm h h' := by
  unfold createGroup at hc
  split at hc
  · next Q there =>
    cases hc
    refine .of_set there (Q.entries_createGroup group) fun g cursor hcursor _ => ?_
    rw [Queue.find?_createGroup]
    split
    · next heq => rw [← heq, hcursor, Option.getD_some]
    · exact hcursor
  · cases hc

theorem calm_hashTake (h : Hub) (key field : String) : Calm h (h.hashTake key field).2 := by
  unfold hashTake
  split
  · exact .refl h
  · exact .of_same rfl rfl

theorem calm_of_look {h h' : Hub} {now : Moment} {c : Call} {r : Option (Except Error c.Value)}
    (hl : h.look now c = (r, h')) (hw : wakes c = false) : Calm h h' := by
  cases c with
  | append | appendPlaceholder | pushReply | close => cases hw
  | readGroup group consumer queues count block =>
    simp only [look] at hl
    cases hread : h.read group queues count with
    | error e =>
      rw [hread] at hl
      exact (Prod.mk.inj hl).2 ▸ .refl h
    | ok taken =>
      have hcalm := calm_takeAll group (max count 1) queues h
      rw [takeAll_of_read hread] at hcalm
      obtain ⟨ds, h₁⟩ := taken
      rw [hread] at hl
      cases ds <;> exact (Prod.mk.inj hl).2 ▸ hcalm
  | popReply key timeout =>
    have hcalm := calm_popReply h now key
    simp only [look] at hl
    generalize h.popReply now key = p at hl hcalm
    obtain ⟨v, h₁⟩ := p
    cases v <;> exact (Prod.mk.inj hl).2 ▸ hcalm
  | createGroup queue group =>
    simp only [look, serve] at hl
    cases hc : h.createGroup queue group with
    | ok h₁ =>
      rw [hc] at hl
      exact (Prod.mk.inj hl).2 ▸ calm_createGroup hc
    | error e =>
      rw [hc] at hl
      exact (Prod.mk.inj hl).2 ▸ .refl h
  | hashTake key field => exact (Prod.mk.inj hl).2 ▸ calm_hashTake h key field
  | hashDelete key field => exact (Prod.mk.inj hl).2 ▸ calm_hashTake h key field
  | _ =>
    obtain ⟨-, rfl⟩ := Prod.mk.inj hl
    exact .of_same rfl rfl

theorem look_ne_empty {h h' : Hub} {now : Moment} {c : Call} {r : Except Error c.Value}
    (hl : h.look now c = (some r, h')) {v : c.Value} (he : empty? c = some v) : r ≠ .ok v := by
  cases c with
  | readGroup group consumer queues count block =>
    cases he
    simp only [look] at hl
    split at hl
    · obtain ⟨hr, -⟩ := Prod.mk.inj hl
      cases hr
      exact nofun
    · cases hl
    · next hne _ =>
      obtain ⟨hr, -⟩ := Prod.mk.inj hl
      cases hr
      exact fun heq => hne (Except.ok.inj heq)
  | popReply key timeout =>
    cases he
    simp only [look] at hl
    split at hl
    · obtain ⟨hr, -⟩ := Prod.mk.inj hl
      cases hr
      exact nofun
    · cases hl
  | _ => cases he

end BrokeredCalls.Hub
