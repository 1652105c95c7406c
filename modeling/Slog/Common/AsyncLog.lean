/-
`AsyncLog` (`common/async_log.h`): items inserted by position in any order and read in position
order from `next_` on, up to the first position not yet inserted.
-/

import Mathlib.Data.List.AList
import Slog.Library.Frontier

namespace Slog

open Frontier

/-- The buffered items by position (`log_`) and the position read next (`next_`). -/
structure AsyncLog (α : Type) where
  log : AList (fun _ : Nat => α)
  nextPosition : Nat

namespace AsyncLog

variable {α : Type}

/-- A log read from position zero on, as every log of the modelled components starts. -/
def empty : AsyncLog α := ⟨∅, 0⟩

/-- `Insert`: an item for a position already read is dropped, and a position still buffered
throws. -/
def insert (l : AsyncLog α) (position : Nat) (item : α) : Except String (AsyncLog α) :=
  if position < l.nextPosition then .ok l
  else if position ∈ l.log then
    .error ("Log position " ++ toString position ++ " has already been taken")
  else .ok { l with log := l.log.insert position item }

def hasNext (l : AsyncLog α) : Bool := decide (l.nextPosition ∈ l.log)

/-- `Peek`; `log_.at` throws on a missing position, which is `none` here. -/
def peek (l : AsyncLog α) : Option α := l.log.lookup l.nextPosition

def next (l : AsyncLog α) : Except String ((Nat × α) × AsyncLog α) :=
  match l.log.lookup l.nextPosition with
  | none => .error "Next item does not exist"
  | some item => .ok ((l.nextPosition, item), ⟨l.log.erase l.nextPosition, l.nextPosition + 1⟩)

def numBufferedItems (l : AsyncLog α) : Nat := l.log.keys.length

/-- The log agrees with `items`, the record of every item inserted: it buffers exactly the
items not read yet, and every position before `next_` was inserted. -/
structure Holds (l : AsyncLog α) (items : Nat → Option α) : Prop where
  read : ∀ position, position < l.nextPosition → (items position).isSome
  buffered : ∀ position, l.log.lookup position = if position < l.nextPosition then none else items position

theorem holds_empty : (empty : AsyncLog α).Holds fun _ => none where
  read := fun _ below => absurd below (Nat.not_lt_zero _)
  buffered := fun position => by simp [empty, AList.lookup_empty]

variable {l : AsyncLog α} {items : Nat → Option α}

theorem Holds.lookup_next (holds : l.Holds items) : l.log.lookup l.nextPosition = items l.nextPosition := by
  rw [holds.buffered]
  simp

/-- Inserting a fresh position succeeds and records the item, with one more item buffered. -/
theorem Holds.insert (holds : l.Holds items) {position : Nat} (fresh : items position = none) (item : α) :
    ∃ l', l.insert position item = .ok l' ∧ l'.Holds (Function.update items position (some item)) ∧
      l'.nextPosition = l.nextPosition ∧ l'.numBufferedItems = l.numBufferedItems + 1 := by
  have unread : ¬ position < l.nextPosition := fun below => by
    simpa [fresh] using holds.read position below
  have absent : position ∉ l.log := by
    rw [← AList.lookup_eq_none, holds.buffered, if_neg unread, fresh]
  refine ⟨{ l with log := l.log.insert position item }, by simp [AsyncLog.insert, unread, absent], ?_, rfl, ?_⟩
  · constructor
    · intro other below
      change other < l.nextPosition at below
      have different : other ≠ position := by omega
      simpa [Function.update_of_ne different] using holds.read other below
    · intro other
      by_cases same : other = position
      · subst same
        simp [AList.lookup_insert, unread]
      · rw [AList.lookup_insert_ne same, holds.buffered, Function.update_of_ne same]
  · have missing : position ∉ l.log.keys := fun member => absent (AList.mem_keys.mpr member)
    simp [numBufferedItems, AList.keys_insert, List.erase_of_not_mem missing]

/-- Reading an inserted position succeeds, moves `next_` on and buffers one item fewer. -/
theorem Holds.next (holds : l.Holds items) {item : α} (present : items l.nextPosition = some item) :
    ∃ l', l.next = .ok ((l.nextPosition, item), l') ∧ l'.Holds items ∧
      l'.nextPosition = l.nextPosition + 1 ∧ l'.numBufferedItems + 1 = l.numBufferedItems := by
  have found : l.log.lookup l.nextPosition = some item := holds.lookup_next.trans present
  refine ⟨⟨l.log.erase l.nextPosition, l.nextPosition + 1⟩, by simp [AsyncLog.next, found], ?_, rfl, ?_⟩
  · constructor
    · intro position below
      by_cases same : position = l.nextPosition
      · simp [same, present]
      · change position < l.nextPosition + 1 at below
        exact holds.read position (by omega)
    · intro position
      by_cases same : position = l.nextPosition
      · subst same
        simp [AList.lookup_erase]
      · rw [AList.lookup_erase_ne same, holds.buffered]
        have iff : position < l.nextPosition + 1 ↔ position < l.nextPosition := by omega
        simp only [iff]
  · have member : l.nextPosition ∈ l.log.keys :=
      AList.mem_keys.mp (AList.lookup_isSome.mp (by simp [found]))
    have positive := List.length_pos_of_mem member
    simp only [numBufferedItems, AList.keys_erase, List.length_erase_of_mem member]
    omega

theorem Holds.next_eq_error (holds : l.Holds items) (absent : items l.nextPosition = none) :
    l.next = .error "Next item does not exist" := by
  simp [AsyncLog.next, holds.lookup_next, absent]

/-- An empty buffer has nothing at `next_`. -/
theorem Holds.absent_of_numBufferedItems (holds : l.Holds items) (emptied : l.numBufferedItems = 0) :
    items l.nextPosition = none := by
  have noKeys : l.log.keys = [] := List.length_eq_zero_iff.mp emptied
  have missing : l.nextPosition ∉ l.log := by simp [AList.mem_keys, noKeys]
  rw [← holds.lookup_next]
  exact AList.lookup_eq_none.mpr missing

/-- One pass of a reader that calls `Next` while `HasNext`, keeping what it read. -/
def readStep (state : List (Nat × α) × AsyncLog α) : Option (List (Nat × α) × AsyncLog α) :=
  match state.2.next with
  | .ok (entry, l) => some (state.1 ++ [entry], l)
  | .error _ => none

/-- Reading every item that can be read; each pass takes one buffered item, so the count of
buffered items bounds the passes. -/
def readAll (l : AsyncLog α) : List (Nat × α) × AsyncLog α :=
  whileSome readStep l.numBufferedItems ([], l)

/-- What a reader has read from a log that started at `start`: the positions from `start` on
in order, each with its item. -/
structure ReadFrom (items : Nat → Option α) (start : Nat) (state : List (Nat × α) × AsyncLog α) : Prop where
  holds : state.2.Holds items
  le : start ≤ state.2.nextPosition
  positions : state.1.map Prod.fst = List.range' start (state.2.nextPosition - start)
  entries : ∀ entry ∈ state.1, items entry.1 = some entry.2

/-- The reader reads up to the first position not inserted. -/
theorem Holds.readAll (holds : l.Holds items) :
    ReadFrom items l.nextPosition l.readAll ∧
      IsFrontier (fun position => (items position).isSome) l.nextPosition l.readAll.2.nextPosition := by
  have start : ReadFrom items l.nextPosition ([], l) := ⟨holds, Nat.le_refl _, by simp, by simp⟩
  refine whileSome_spec (ReadFrom items l.nextPosition) (fun state => state.2.nextPosition)
    (fun state => state.2.numBufferedItems) ?_ ?_ ?_ l.numBufferedItems ([], l) start (Nat.le_refl _)
  · intro state read stopped present
    obtain ⟨item, found⟩ := Option.isSome_iff_exists.mp present
    obtain ⟨l', taken, -⟩ := read.holds.next found
    simp [readStep, taken] at stopped
  · intro state following read stepped
    cases present : items state.2.nextPosition with
    | none =>
        simp [readStep, read.holds.next_eq_error present] at stepped
    | some item =>
        obtain ⟨l', taken, kept, moved, fewer⟩ := read.holds.next present
        simp only [readStep, taken, Option.some.injEq] at stepped
        subst stepped
        have started := read.le
        have later : l.nextPosition ≤ l'.nextPosition := by omega
        have shorter : l'.numBufferedItems < state.2.numBufferedItems := by omega
        refine ⟨rfl, ⟨kept, later, ?_, ?_⟩, moved, shorter⟩
        · have extended : state.2.nextPosition + 1 - l.nextPosition =
              (state.2.nextPosition - l.nextPosition) + 1 := by omega
          rw [List.map_append, read.positions, moved, extended, List.range'_1_concat]
          simp [read.le]
        · intro entry member
          rcases List.mem_append.mp member with earlier | latest
          · exact read.entries entry earlier
          · simp only [List.mem_singleton] at latest
            subst latest
            exact present
  · intro state read emptied
    simp [readStep, read.holds.next_eq_error (read.holds.absent_of_numBufferedItems emptied)]

/-- Items inserted one at a time, the reader reading as far as it can after each. -/
def insertAll : List (Nat × α) → AsyncLog α → Except String (List (Nat × α) × AsyncLog α)
  | [], l => .ok ([], l)
  | (position, item) :: rest, l => do
      let l ← l.insert position item
      let (read, l) := l.readAll
      let (later, l) ← insertAll rest l
      pure (read ++ later, l)

/-- The record of items after a list of inserts. -/
def record (items : Nat → Option α) (inserts : List (Nat × α)) : Nat → Option α :=
  inserts.foldl (fun items entry => Function.update items entry.1 (some entry.2)) items

theorem record_cons (first : Nat × α) (rest : List (Nat × α)) :
    record items (first :: rest) = record (Function.update items first.1 (some first.2)) rest := rfl

theorem record_isSome (inserts : List (Nat × α)) {position : Nat} (present : (items position).isSome) :
    (record items inserts position).isSome := by
  induction inserts generalizing items with
  | nil => exact present
  | cons first rest ih =>
      rw [record_cons]
      apply ih
      by_cases same : position = first.1
      · simp [same]
      · simpa [Function.update_of_ne same] using present

/-- Inserts elsewhere leave a position's record alone. -/
theorem record_of_ne (inserts : List (Nat × α)) {position : Nat}
    (apart : ∀ entry ∈ inserts, entry.1 ≠ position) : record items inserts position = items position := by
  induction inserts generalizing items with
  | nil => rfl
  | cons first rest ih =>
      rw [record_cons, ih (fun entry member => apart entry (List.mem_cons_of_mem _ member)),
        Function.update_of_ne (apart first List.mem_cons_self).symm]

theorem record_eq_some (inserts : List (Nat × α)) {position : Nat} {item : α}
    (found : record items inserts position = some item) : items position = some item ∨ (position, item) ∈ inserts := by
  induction inserts generalizing items with
  | nil => exact Or.inl found
  | cons first rest ih =>
      rw [record_cons] at found
      rcases ih found with earlier | later
      · by_cases same : position = first.1
        · subst same
          simp only [Function.update_self, Option.some.injEq] at earlier
          exact Or.inr (by simp [← earlier])
        · exact Or.inl (by simpa [Function.update_of_ne same] using earlier)
      · exact Or.inr (List.mem_cons_of_mem _ later)

theorem record_isSome_iff (inserts : List (Nat × α)) {position : Nat} :
    (record items inserts position).isSome ↔ (items position).isSome ∨ position ∈ inserts.map Prod.fst := by
  induction inserts generalizing items with
  | nil => simp [record]
  | cons first rest ih =>
      rw [record_cons, ih]
      by_cases same : position = first.1
      · simp [same]
      · simp [same]

/-- Every insert at a fresh position, with the reader caught up before the first, reads the
positions in order up to the first one not inserted, each with its item. -/
theorem Holds.insertAll (inserts : List (Nat × α)) (holds : l.Holds items)
    (caughtUp : items l.nextPosition = none) (distinct : (inserts.map Prod.fst).Nodup)
    (fresh : ∀ entry ∈ inserts, items entry.1 = none) :
    ∃ read l', l.insertAll inserts = .ok (read, l') ∧ l'.Holds (record items inserts) ∧
      IsFrontier (fun position => (record items inserts position).isSome) l.nextPosition l'.nextPosition ∧
      read.map Prod.fst = List.range' l.nextPosition (l'.nextPosition - l.nextPosition) ∧
      ∀ entry ∈ read, record items inserts entry.1 = some entry.2 := by
  induction inserts generalizing l items with
  | nil =>
      exact ⟨[], l, rfl, holds, isFrontier_self (by simp [record, caughtUp]), by simp, by simp⟩
  | cons first rest ih =>
      obtain ⟨position, item⟩ := first
      simp only [List.map_cons, List.nodup_cons, List.mem_map] at distinct
      obtain ⟨notLater, restDistinct⟩ := distinct
      obtain ⟨inserted, insertedRun, insertedHolds, moved, -⟩ := holds.insert (fresh _ List.mem_cons_self) item
      obtain ⟨readFrom, frontier⟩ := insertedHolds.readAll
      rw [moved] at frontier readFrom
      have restFresh : ∀ entry ∈ rest, Function.update items position (some item) entry.1 = none := by
        intro entry member
        have differs : entry.1 ≠ position := fun same => notLater ⟨entry, member, same⟩
        rw [Function.update_of_ne differs]
        exact fresh entry (List.mem_cons_of_mem _ member)
      obtain ⟨later, final, ran, finalHolds, finalFrontier, finalPositions, finalEntries⟩ :=
        ih readFrom.holds (Option.not_isSome_iff_eq_none.mp frontier.blocked) restDistinct restFresh
      refine ⟨inserted.readAll.1 ++ later, final, ?_, finalHolds, ?_, ?_, ?_⟩
      · simp [AsyncLog.insertAll, insertedRun, ran, bind, Except.bind, pure, Except.pure]
      · refine finalFrontier.extend (fun position low high => ?_) frontier.le
        exact record_isSome rest (frontier.below position low high)
      · rw [List.map_append, readFrom.positions, finalPositions,
          range'_append_range' frontier.le finalFrontier.le]
      · intro entry member
        rcases List.mem_append.mp member with early | late
        · have present := readFrom.entries entry early
          rw [record_cons, record_of_ne rest (fun other member same => by
            simp [← same, restFresh other member] at present)]
          exact present
        · exact finalEntries entry late

/-- From an empty log, inserts at distinct positions are read in position order, up to the
first position not inserted, each with its own item. -/
theorem insertAll_empty (inserts : List (Nat × α)) (distinct : (inserts.map Prod.fst).Nodup) :
    ∃ read stop, (empty.insertAll inserts).map Prod.fst = .ok read ∧
      IsFrontier (· ∈ inserts.map Prod.fst) 0 stop ∧ read.map Prod.fst = List.range stop ∧
      ∀ entry ∈ read, entry ∈ inserts := by
  obtain ⟨read, final, ran, -, frontier, positions, entries⟩ :=
    holds_empty.insertAll inserts rfl distinct (fun _ _ => rfl)
  refine ⟨read, final.nextPosition, by simp [ran, Except.map], ?_, ?_, ?_⟩
  · refine frontier.congr (fun position _ _ => ?_)
    simp [record_isSome_iff]
  · simpa [List.range_eq_range', empty] using positions
  · intro entry member
    simpa using record_eq_some inserts (entries entry member)

/-- What the reader reads from an empty log does not depend on the order of the inserts. -/
theorem insertAll_perm {inserts inserts' : List (Nat × α)} (distinct : (inserts.map Prod.fst).Nodup)
    (perm : inserts'.Perm inserts) {read : List (Nat × α)}
    (ran : (empty.insertAll inserts).map Prod.fst = .ok read) :
    (empty.insertAll inserts').map Prod.fst = .ok read := by
  have distinct' : (inserts'.map Prod.fst).Nodup := (perm.map Prod.fst).nodup_iff.mpr distinct
  obtain ⟨read₁, stop, ran₁, frontier, positions, entries⟩ := insertAll_empty inserts distinct
  obtain ⟨read₂, stop', ran₂, frontier', positions', entries'⟩ := insertAll_empty inserts' distinct'
  have sameRead : read = read₁ := by
    rw [ran₁] at ran
    exact (Except.ok.inj ran).symm
  have sameStop : stop' = stop := by
    refine (frontier'.congr (fun position _ _ => ?_)).unique frontier
    exact (perm.map Prod.fst).mem_iff
  rw [ran₂, sameRead]
  congr 1
  refine eq_of_map_fst_eq (by rw [positions', positions, sameStop]) (fun a member b member' same => ?_)
  exact List.inj_on_of_nodup_map distinct (perm.subset (entries' a member)) (entries b member') same

end AsyncLog

end Slog
