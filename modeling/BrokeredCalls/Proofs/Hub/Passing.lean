import BrokeredCalls.Proofs.Hub.Cursors
import BrokeredCalls.Proofs.Hub.Wellformed

/-!
Entries that a group is moved past. That is a read of the group which answers with them, and what a read
does not answer with stays to be read.
-/

namespace BrokeredCalls.Hub

open Queue (Regular Taken)

/-- The group had yet to read the entry, and now stands at it or beyond. -/
structure Passes (g q : String) (e : Entry) (h h' : Hub) : Prop where
  unread : e ∈ h.undelivered g q
  passed : ∃ c, h'.cursor? q g = some c ∧ e.id ≤ c

variable {h h' : Hub} {now : Moment} {g q : String} {e : Entry}

theorem mem_undelivered_iff {c : EntryId} (here : h.cursor? q g = some c) :
    e ∈ h.undelivered g q ↔ e ∈ (h.queueAt q).entries ∧ c < e.id :=
  Queue.mem_undelivered (cursor?_eq h q g ▸ here)

theorem cursor_of_undelivered (unread : e ∈ h.undelivered g q) : ∃ c, h.cursor? q g = some c := by
  refine Option.ne_none_iff_exists'.mp fun none => ?_
  rw [cursor?_eq] at none
  rw [undelivered, Queue.undelivered_of_none none] at unread
  cases unread

theorem took_of_read {consumer : String} {queues : List String} {count : Nat} {block : Duration}
    {r : Except Error (List Delivery)}
    (hd : Does h now (.call (.readGroup g consumer queues count block)) r h') :
    (∃ e, r = .error e ∧ h' = h) ∨
      ∃ ds, r = .ok ds ∧ takeAll g (max count 1) queues h = (ds, h') := by
  rcases hd.cases with ⟨deadline, hs⟩ | ⟨e, -, rfl, same⟩
  · rcases serve_readGroup hs with ⟨e, rfl, same⟩ | ⟨ds, took, rfl⟩
    · exact .inl ⟨e, rfl, same⟩
    · exact .inr ⟨ds, rfl, took⟩
  · exact .inl ⟨e, rfl, same⟩

theorem undelivered_or_passes {g' consumer : String} {queues : List String} {count : Nat}
    {block : Duration} {r : Except Error (List Delivery)}
    (hd : Does h now (.call (.readGroup g' consumer queues count block)) r h')
    (unread : e ∈ h.undelivered g q) : e ∈ h'.undelivered g q ∨ Passes g q e h h' := by
  obtain ⟨c, here⟩ := cursor_of_undelivered unread
  rcases took_of_read hd with ⟨_, -, rfl⟩ | ⟨ds, -, took⟩
  · exact .inl unread
  rcases taken_of_takeAll took q with ⟨before, -⟩ | ⟨Q, es, Q', before, after, taken, -⟩
  · rw [cursor?, before] at here
    cases here
  · have attached : (h'.cursor? q g).isSome = true := by
      rw [cursor?, after, Option.bind_some, taken.reread.attached]
      rw [cursor?, before, Option.bind_some] at here
      exact here ▸ rfl
    obtain ⟨c', there⟩ := Option.isSome_iff_exists.mp attached
    have entries : (h'.queueAt q).entries = (h.queueAt q).entries := by
      rw [queueAt, queueAt, before, after, Option.getD_some, Option.getD_some, taken.reread.entries]
    by_cases left : c' < e.id
    · have kept := entries ▸ ((mem_undelivered_iff here).mp unread).1
      exact .inl ((mem_undelivered_iff there).mpr ⟨kept, left⟩)
    · exact .inr ⟨unread, c', there, left⟩

theorem Queue.Taken.subset {Q Q' : Queue} {es : List Entry} (taken : Taken g Q es Q') :
    ∀ a ∈ es, a ∈ Q.entries := by
  induction taken with
  | nothing => exact List.forall_mem_nil _
  | more took rest ih =>
    obtain ⟨cursor, -, rfl, -⟩ := Queue.take?_cases took
    refine List.forall_mem_append.mpr ⟨fun a ha => (Queue.mem_fresh ha).1, fun a ha => ?_⟩
    exact (Queue.reread_of_take? took).entries ▸ ih a ha

theorem service_of_read {consumer : String} {queues : List String} {count : Nat} {block : Duration}
    {ds : List Delivery} (wf : Wellformed h)
    (hd : Does h now (.call (.readGroup g consumer queues count block)) (.ok ds) h') :
    ∀ d ∈ ds, d.envelope.service = d.queue := by
  intro d mem
  rcases took_of_read hd with ⟨_, failed, -⟩ | ⟨_, answered, took⟩
  · cases failed
  cases answered
  have own : d ∈ ds.filter (·.queue = d.queue) := List.mem_filter.mpr ⟨mem, by simp⟩
  rcases taken_of_takeAll took d.queue with ⟨-, -, none⟩ | ⟨Q, es, Q', before, -, taken, given⟩
  · rw [none] at own
    cases own
  · rw [given] at own
    obtain ⟨a, ha, same⟩ := List.mem_map.mp own
    rw [← same]
    exact ((wf.queues _ Q before).2.stored a (taken.subset a ha)).1

end BrokeredCalls.Hub
