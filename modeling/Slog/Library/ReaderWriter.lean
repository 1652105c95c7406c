/-
Reader-writer lock queues in arrival order: the tail a lock keeps of a queue, and the prefix a
first-in first-out lock grants.
-/

import Mathlib.Data.List.Induction

namespace ReaderWriter

variable {ι : Type}

/-- Two requests conflict when at least one of them writes. -/
def conflicts (write write' : Bool) : Bool := write || write'

/-- The tail of a queue: its last writer and the readers that came after it. -/
structure Tail (ι : Type) where
  writer : Option ι
  readers : List ι

/-- A write replaces the tail; a read joins the readers. -/
def Tail.push (tail : Tail ι) (request : ι × Bool) : Tail ι :=
  if request.2 then ⟨some request.1, []⟩ else ⟨tail.writer, tail.readers ++ [request.1]⟩

def tailOf (queue : List (ι × Bool)) : Tail ι := queue.foldl Tail.push ⟨none, []⟩

/-- A read waits for the last writer; a write waits for the readers since it, or for the
writer when there are none. -/
def Tail.waitsFor (tail : Tail ι) (write : Bool) : List ι :=
  if write && !tail.readers.isEmpty then tail.readers else tail.writer.toList

@[simp] theorem tailOf_nil : tailOf ([] : List (ι × Bool)) = ⟨none, []⟩ := rfl

@[simp] theorem tailOf_append_singleton (queue : List (ι × Bool)) (request : ι × Bool) :
    tailOf (queue ++ [request]) = (tailOf queue).push request := by
  simp [tailOf, List.foldl_append]

theorem push_write {tail : Tail ι} {request : ι × Bool} (write : request.2 = true) :
    tail.push request = ⟨some request.1, []⟩ := by
  simp [Tail.push, write]

theorem push_read {tail : Tail ι} {request : ι × Bool} (read : request.2 = false) :
    tail.push request = ⟨tail.writer, tail.readers ++ [request.1]⟩ := by
  simp [Tail.push, read]

/-- The last writer of the tail is a write request of the queue, and each reader a read. -/
theorem tailOf_sound (queue : List (ι × Bool)) :
    (∀ writer, (tailOf queue).writer = some writer → (writer, true) ∈ queue) ∧
      ∀ reader ∈ (tailOf queue).readers, (reader, false) ∈ queue := by
  induction queue using List.reverseRecOn with
  | nil => simp
  | append_singleton front request ih =>
      obtain ⟨owner, write⟩ := request
      cases write with
      | true => simp [push_write]
      | false =>
          rw [tailOf_append_singleton, push_read rfl]
          constructor
          · intro writer found
            exact List.mem_append_left _ (ih.1 writer found)
          · intro reader member
            rcases List.mem_append.mp member with old | new
            · exact List.mem_append_left _ (ih.2 reader old)
            · simp at new
              simp [new]

/-- Each request a new request waits for came before it and conflicts with it. -/
theorem mem_waitsFor {queue : List (ι × Bool)} {write : Bool} {blocker : ι}
    (member : blocker ∈ (tailOf queue).waitsFor write) :
    ∃ request ∈ queue, request.1 = blocker ∧ conflicts request.2 write = true := by
  have sound := tailOf_sound queue
  unfold Tail.waitsFor at member
  split at member
  · rename_i reads
    have writes : write = true := by simpa using (Bool.and_eq_true _ _).mp reads |>.1
    exact ⟨(blocker, false), sound.2 blocker member, rfl, by simp [conflicts, writes]⟩
  · have found : (tailOf queue).writer = some blocker := by
      simpa [Option.mem_toList] using member
    exact ⟨(blocker, true), sound.1 blocker found, rfl, by simp [conflicts]⟩

/-- An owner that appears once splits a queue in one way only. -/
theorem split_unique {front front' back back' : List (ι × Bool)} {owner : ι} {write write' : Bool}
    (same : front ++ (owner, write) :: back = front' ++ (owner, write') :: back')
    (absent : owner ∉ front.map Prod.fst) (absent' : owner ∉ front'.map Prod.fst) :
    front = front' ∧ write = write' ∧ back = back' := by
  induction front generalizing front' with
  | nil =>
      cases front' with
      | nil => simpa using same
      | cons first rest =>
          simp only [List.nil_append, List.cons_append, List.cons.injEq] at same
          simp [← same.1] at absent'
  | cons first rest ih =>
      cases front' with
      | nil =>
          simp only [List.nil_append, List.cons_append, List.cons.injEq] at same
          simp [same.1] at absent
      | cons first' rest' =>
          simp only [List.cons_append, List.cons.injEq] at same
          have tail := ih same.2 (by simp_all) (by simp_all)
          exact ⟨by rw [same.1, tail.1], tail.2⟩

/-- A request of a queue with requests added at its end is an old one or an added one. -/
theorem split_append {queue extra front back : List (ι × Bool)} {request : ι × Bool}
    (same : queue ++ extra = front ++ request :: back) :
    (∃ back', queue = front ++ request :: back' ∧ back = back' ++ extra) ∨
      ∃ front', front = queue ++ front' ∧ extra = front' ++ request :: back := by
  rcases List.append_eq_append_iff.mp same with ⟨front', split, rest⟩ | ⟨middle, split, rest⟩
  · exact .inr ⟨front', split, rest⟩
  · cases middle with
    | nil =>
        simp only [List.nil_append] at rest
        exact .inr ⟨[], by simpa using split.symm, by simpa using rest.symm⟩
    | cons first middle =>
        simp only [List.cons_append, List.cons.injEq] at rest
        obtain ⟨rfl, rfl⟩ := rest
        exact .inl ⟨middle, split, rfl⟩

/-- A queue kept as a sublist of the arrivals, with a leading part: whatever arrived before a
request of the leading part and is still in the queue is in the leading part too. -/
theorem mem_lead_of_sublist {α : Type} {lead rest arrivals front back : List α} {request earlier : α}
    (kept : (lead ++ rest).Sublist arrivals) (distinct : arrivals.Nodup)
    (split : arrivals = front ++ request :: back) (before : earlier ∈ front)
    (present : earlier ∈ lead ++ rest) (leading : request ∈ lead) : earlier ∈ lead := by
  rw [split] at kept distinct
  obtain ⟨first, second, parts, firstKept, secondKept⟩ := List.sublist_append_iff.mp kept
  have apart := (List.nodup_append.mp distinct).2.2
  have early : earlier ∈ first := by
    rw [parts] at present
    rcases List.mem_append.mp present with inFirst | inSecond
    · exact inFirst
    · exact absurd rfl (apart earlier before earlier (secondKept.subset inSecond))
  have late : request ∉ first := fun inFirst =>
    apart request (firstKept.subset inFirst) request List.mem_cons_self rfl
  rcases List.append_eq_append_iff.mp parts with ⟨middle, grown, _⟩ | ⟨middle, shrunk, _⟩
  · exact absurd (grown ▸ List.mem_append_left middle leading) late
  · rw [shrunk]
    exact List.mem_append_left middle early

/-- Every request of the queue that satisfies `P` waits only for requests that satisfy `P`. -/
def Closed (P : ι → Prop) (queue : List (ι × Bool)) : Prop :=
  ∀ (index : Nat) (inside : index < queue.length), P queue[index].1 →
    ∀ blocker ∈ (tailOf (queue.take index)).waitsFor queue[index].2, P blocker

theorem Closed.take {P : ι → Prop} {queue : List (ι × Bool)} (closed : Closed P queue) (count : Nat) :
    Closed P (queue.take count) := by
  intro index inside holds blocker member
  have within : index < queue.length := by
    have := List.length_take_le' count queue
    omega
  have same : (queue.take count)[index] = queue[index] := List.getElem_take
  have bound : index ≤ count := by
    simp only [List.length_take] at inside
    omega
  have taken : (queue.take count).take index = queue.take index := by
    rw [List.take_take, Nat.min_eq_left bound]
  rw [taken, same] at member
  exact closed index within (by rw [same] at holds; exact holds) blocker member

theorem Closed.front {P : ι → Prop} {front : List (ι × Bool)} {request : ι × Bool}
    (closed : Closed P (front ++ [request])) : Closed P front := by
  intro index inside holds blocker member
  have within : index < (front ++ [request]).length := by simp; omega
  have same : (front ++ [request])[index] = front[index] := List.getElem_append_left inside
  have taken : (front ++ [request]).take index = front.take index :=
    List.take_append_of_le_length (Nat.le_of_lt inside)
  apply closed index within (by rw [same]; exact holds) blocker
  rw [taken, same]
  exact member

theorem Closed.last {P : ι → Prop} {front : List (ι × Bool)} {request : ι × Bool}
    (closed : Closed P (front ++ [request])) (holds : P request.1) :
    ∀ blocker ∈ (tailOf front).waitsFor request.2, P blocker := by
  have within : front.length < (front ++ [request]).length := by simp
  have same : (front ++ [request])[front.length] = request := by simp
  have taken : (front ++ [request]).take front.length = front := by simp
  intro blocker member
  apply closed front.length within (by rw [same]; exact holds) blocker
  rw [taken, same]
  exact member

/-- Requests whose owners are outside `P` add nothing to check. -/
theorem Closed.append {P : ι → Prop} {queue extra : List (ι × Bool)} (closed : Closed P queue)
    (outside : ∀ request ∈ extra, ¬P request.1) : Closed P (queue ++ extra) := by
  intro index inside holds blocker member
  by_cases old : index < queue.length
  · have same : (queue ++ extra)[index] = queue[index] := List.getElem_append_left old
    have taken : (queue ++ extra).take index = queue.take index :=
      List.take_append_of_le_length (Nat.le_of_lt old)
    rw [taken, same] at member
    exact closed index old (by rw [same] at holds; exact holds) blocker member
  · have added : (queue ++ extra)[index] ∈ extra := by
      rw [List.getElem_append_right (by omega)]
      exact List.getElem_mem _
    exact absurd holds (outside _ added)

/-- A larger `P` keeps a queue closed once the requests it adds wait only for `P` requests. -/
theorem Closed.grow {P Q : ι → Prop} {queue : List (ι × Bool)} (closed : Closed P queue)
    (larger : ∀ owner, P owner → Q owner)
    (added : ∀ front request back, queue = front ++ request :: back → Q request.1 → ¬P request.1 →
      ∀ blocker ∈ (tailOf front).waitsFor request.2, Q blocker) : Closed Q queue := by
  intro index inside holds blocker member
  by_cases before : P queue[index].1
  · exact larger blocker (closed index inside before blocker member)
  · apply added (queue.take index) queue[index] (queue.drop (index + 1)) _ holds before blocker member
    simp

/-- The tail is enough for exclusion: when every request waits only for `P` requests, a new
request whose direct blockers all satisfy `P` finds every earlier conflicting request in `P`.
The induction runs over the queue from its end; a read passes the question on to the writer
before it, a write to the readers since that writer. -/
theorem conflicting_of_waitsFor (P : ι → Prop) (queue : List (ι × Bool)) (closed : Closed P queue)
    (write : Bool) (blockers : ∀ blocker ∈ (tailOf queue).waitsFor write, P blocker) :
    ∀ request ∈ queue, conflicts request.2 write = true → P request.1 := by
  induction queue using List.reverseRecOn generalizing write with
  | nil => simp
  | append_singleton front last ih =>
      have lastBlockers := closed.last
      have frontClosed := closed.front
      obtain ⟨owner, lastWrite⟩ := last
      rw [tailOf_append_singleton] at blockers
      intro request member conflict
      rcases List.mem_append.mp member with old | new
      · cases lastWrite with
        | true =>
            have holds : P owner := blockers owner (by simp [push_write, Tail.waitsFor])
            exact ih frontClosed true (lastBlockers holds) request old (by simp [conflicts])
        | false =>
            cases write with
            | false =>
                apply ih frontClosed false _ request old conflict
                intro blocker found
                exact blockers blocker (by simpa [push_read, Tail.waitsFor] using found)
            | true =>
                have holds : P owner := blockers owner (by simp [push_read, Tail.waitsFor])
                apply ih frontClosed true _ request old (by simp [conflicts])
                intro blocker found
                by_cases empty : (tailOf front).readers = []
                · apply lastBlockers holds blocker
                  simpa [Tail.waitsFor, empty] using found
                · apply blockers blocker
                  have reader : blocker ∈ (tailOf front).readers := by
                    simpa [Tail.waitsFor, empty] using found
                  simp [push_read, Tail.waitsFor, reader]
      · simp at new
        subst new
        cases lastWrite with
        | true => exact blockers owner (by simp [push_write, Tail.waitsFor])
        | false =>
            cases write with
            | false => simp [conflicts] at conflict
            | true => exact blockers owner (by simp [push_read, Tail.waitsFor])

/-- The requests at the front of a queue that a first-in first-out lock grants: a first
write alone, or the reads up to the first write. -/
def grantedPrefix : List (ι × Bool) → List (ι × Bool)
  | [] => []
  | request :: rest => if request.2 then [request] else (request :: rest).takeWhile fun r => !r.2

/-- A request is among the leading reads exactly when it and every request before it read. -/
theorem mem_takeWhile_reads {front back : List (ι × Bool)} {request : ι × Bool}
    (fresh : request.1 ∉ front.map Prod.fst) :
    request.1 ∈ ((front ++ request :: back).takeWhile fun r => !r.2).map Prod.fst ↔
      (∀ earlier ∈ front, earlier.2 = false) ∧ request.2 = false := by
  induction front with
  | nil => cases write : request.2 <;> simp [write]
  | cons earlier front ih =>
      have other : request.1 ≠ earlier.1 := fun same => fresh (by simp [same])
      have fresh' : request.1 ∉ front.map Prod.fst := fun member => fresh (by simp [member])
      cases write : earlier.2 with
      | true => simp [write]
      | false => simp [write, other, ih fresh']

/-- A request holds a first-in first-out lock exactly when no request before it conflicts. -/
theorem mem_grantedPrefix {front back : List (ι × Bool)} {request : ι × Bool}
    (fresh : request.1 ∉ front.map Prod.fst) :
    request.1 ∈ (grantedPrefix (front ++ request :: back)).map Prod.fst ↔
      ∀ earlier ∈ front, conflicts earlier.2 request.2 = false := by
  cases front with
  | nil => cases write : request.2 <;> simp [grantedPrefix, write]
  | cons first front =>
      have other : request.1 ≠ first.1 := fun same => fresh (by simp [same])
      cases write : first.2 with
      | true => simp [grantedPrefix, write, other, conflicts]
      | false =>
          have reads : request.1 ∈ ((first :: front ++ request :: back).takeWhile fun r => !r.2).map
              Prod.fst ↔ (∀ earlier ∈ first :: front, earlier.2 = false) ∧ request.2 = false :=
            mem_takeWhile_reads fresh
          simp only [List.cons_append, grantedPrefix, write, Bool.false_eq_true, if_false] at reads ⊢
          rw [reads]
          constructor
          · rintro ⟨allRead, read⟩ earlier member
            simp [conflicts, allRead earlier member, read]
          · intro free
            have read : request.2 = false := by
              have free' := free first List.mem_cons_self
              simp only [conflicts, Bool.or_eq_false_iff] at free'
              exact free'.2
            refine ⟨fun earlier member => ?_, read⟩
            have free' := free earlier member
            simp only [conflicts, Bool.or_eq_false_iff] at free'
            exact free'.1

end ReaderWriter
