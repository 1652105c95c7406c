/-
The first position from a start where a property fails, and the loops that walk to it.
-/

import Mathlib.Logic.Basic

namespace Frontier

variable {σ : Type} {ready ready' : Nat → Prop} {start middle stop : Nat}

/-- `stop` is the first position from `start` on where `ready` fails. -/
structure IsFrontier (ready : Nat → Prop) (start stop : Nat) : Prop where
  le : start ≤ stop
  below : ∀ position, start ≤ position → position < stop → ready position
  blocked : ¬ ready stop

/-- There is at most one first failing position. -/
theorem IsFrontier.unique {stop' : Nat} (first : IsFrontier ready start stop)
    (second : IsFrontier ready start stop') : stop = stop' := by
  rcases Nat.lt_trichotomy stop stop' with less | same | greater
  · exact absurd (second.below stop first.le less) first.blocked
  · exact same
  · exact absurd (first.below stop' second.le greater) second.blocked

theorem isFrontier_self (blocked : ¬ ready start) : IsFrontier ready start start where
  le := Nat.le_refl start
  below := fun _ low high => absurd high (Nat.not_lt.mpr low)
  blocked := blocked

/-- A frontier from a later start is one from an earlier start, when the property holds
in between. -/
theorem IsFrontier.extend (before : ∀ position, start ≤ position → position < middle → ready position)
    (le : start ≤ middle) (frontier : IsFrontier ready middle stop) : IsFrontier ready start stop where
  le := Nat.le_trans le frontier.le
  below := by
    intro position low high
    by_cases early : position < middle
    · exact before position low early
    · exact frontier.below position (Nat.le_of_not_lt early) high
  blocked := frontier.blocked

theorem IsFrontier.succ (now : ready start) (frontier : IsFrontier ready (start + 1) stop) :
    IsFrontier ready start stop :=
  frontier.extend (fun position low high => by
    have same : position = start := by omega
    exact same ▸ now) (Nat.le_succ start)

/-- Only the property on the positions from the start up to the frontier matters. -/
theorem IsFrontier.congr (same : ∀ position, start ≤ position → position ≤ stop → (ready position ↔ ready' position))
    (frontier : IsFrontier ready start stop) : IsFrontier ready' start stop where
  le := frontier.le
  below := fun position low high =>
    (same position low (Nat.le_of_lt high)).mp (frontier.below position low high)
  blocked := fun holds => frontier.blocked ((same stop frontier.le (Nat.le_refl stop)).mpr holds)

/-- The positions walked in two legs are those walked in one. -/
theorem range'_append_range' (first : start ≤ middle) (second : middle ≤ stop) :
    List.range' start (middle - start) ++ List.range' middle (stop - middle) = List.range' start (stop - start) := by
  have split := @List.range'_append_1 start (middle - start) (stop - middle)
  rwa [show start + (middle - start) = middle by omega,
    show middle - start + (stop - middle) = stop - start by omega] at split

/-- Entries whose positions run from `start` up to `stop` run one further with an entry at `stop`
appended. -/
theorem map_fst_concat_range' {β : Type} {entries : List (Nat × β)} (le : start ≤ stop)
    (positions : entries.map Prod.fst = List.range' start (stop - start)) (item : β) :
    (entries ++ [(stop, item)]).map Prod.fst = List.range' start (stop + 1 - start) := by
  have extended : stop + 1 - start = (stop - start) + 1 := by omega
  rw [List.map_append, positions, extended, List.range'_1_concat]
  simp [le]

/-- The positions below `stop` where `chosen` holds, each numbered by how many chosen positions
come before it, are numbered 0, 1, 2, ... in turn: none twice and none left out. -/
theorem map_countP_filter_range (chosen : Nat → Bool) (stop : Nat) :
    ((List.range stop).filter chosen).map (fun position => (List.range position).countP chosen) =
      List.range ((List.range stop).countP chosen) := by
  induction stop with
  | zero => rfl
  | succ stop ih =>
      rw [List.range_succ, List.filter_append, List.countP_append, List.map_append, ih]
      cases picked : chosen stop with
      | false => simp [picked]
      | true => simp [picked, List.range_succ]

/-- Two lists of pairs with the same first components are equal when pairs that share a first
component are equal. -/
theorem eq_of_map_fst_eq {β : Type} {first second : List (Nat × β)}
    (same : first.map Prod.fst = second.map Prod.fst)
    (determined : ∀ a ∈ first, ∀ b ∈ second, a.1 = b.1 → a = b) : first = second := by
  induction first generalizing second with
  | nil => simpa using same.symm
  | cons head tail ih =>
      cases second with
      | nil => simp at same
      | cons head' tail' =>
          simp only [List.map_cons, List.cons.injEq] at same
          rw [determined head List.mem_cons_self head' List.mem_cons_self same.1,
            ih same.2 (fun a member b member' => determined a (List.mem_cons_of_mem _ member) b
              (List.mem_cons_of_mem _ member'))]

/-- Two items of a list with the same value under `g` are one when the values are distinct. -/
theorem eq_of_nodup_filterMap {α β : Type} {g : α → Option β} {items : List α}
    (distinct : (items.filterMap g).Nodup) {a b : α} {value : β} (memberA : a ∈ items) (memberB : b ∈ items)
    (valueA : g a = some value) (valueB : g b = some value) : a = b := by
  induction items with
  | nil => simp at memberA
  | cons head tail ih =>
      have listed : ∀ c ∈ tail, g c = some value → value ∈ tail.filterMap g :=
        fun c member found => List.mem_filterMap.mpr ⟨c, member, found⟩
      rcases List.mem_cons.mp memberA with rfl | laterA <;> rcases List.mem_cons.mp memberB with rfl | laterB
      · rfl
      · simp only [List.filterMap_cons, valueA, List.nodup_cons] at distinct
        exact absurd (listed b laterB valueB) distinct.1
      · simp only [List.filterMap_cons, valueB, List.nodup_cons] at distinct
        exact absurd (listed a laterA valueA) distinct.1
      · have rest : (tail.filterMap g).Nodup := by
          simp only [List.filterMap_cons] at distinct
          split at distinct
          · exact distinct
          · exact (List.nodup_cons.mp distinct).2
        exact ih rest laterA laterB

/-- With distinct values under `g`, an item never shares the value of an item before it. -/
theorem filterMap_apart {α β : Type} {g : α → Option β} {done rest : List α} {item : α}
    (distinct : ((done ++ item :: rest).filterMap g).Nodup) {earlier : α} (member : earlier ∈ done)
    {value : β} (valueEarlier : g earlier = some value) : g item ≠ some value := by
  intro valueItem
  rw [List.filterMap_append, List.filterMap_cons, valueItem] at distinct
  have listed : value ∈ done.filterMap g := List.mem_filterMap.mpr ⟨earlier, member, valueEarlier⟩
  exact (List.nodup_append.mp distinct).2.2 value listed value List.mem_cons_self rfl

/-- A loop that repeats `step` until it declines, for at most `fuel` passes. -/
def whileSome (step : σ → Option σ) : Nat → σ → σ
  | 0, state => state
  | fuel + 1, state =>
      match step state with
      | none => state
      | some next => whileSome step fuel next

section Loop

variable {step : σ → Option σ} (Inv : σ → Prop) (position measure : σ → Nat)

/-- The loop rule: when a step is taken exactly where `ready` holds, moves one position on,
keeps the invariant and lowers a measure that the fuel bounds, the loop ends at the frontier
of `ready` from where it started. -/
theorem whileSome_spec
    (declines : ∀ state, Inv state → step state = none → ¬ ready (position state))
    (advances : ∀ state next, Inv state → step state = some next →
      ready (position state) ∧ Inv next ∧ position next = position state + 1 ∧ measure next < measure state)
    (exhausted : ∀ state, Inv state → measure state = 0 → step state = none)
    (fuel : Nat) (state : σ) (holds : Inv state) (enough : measure state ≤ fuel) :
    Inv (whileSome step fuel state) ∧
      IsFrontier ready (position state) (position (whileSome step fuel state)) := by
  induction fuel generalizing state with
  | zero =>
      have stopped := exhausted state holds (Nat.le_zero.mp enough)
      exact ⟨holds, isFrontier_self (declines state holds stopped)⟩
  | succ fuel ih =>
      simp only [whileSome]
      cases stepped : step state with
      | none => exact ⟨holds, isFrontier_self (declines state holds stepped)⟩
      | some next =>
          obtain ⟨now, kept, moved, lower⟩ := advances state next holds stepped
          obtain ⟨final, frontier⟩ := ih next kept (by omega)
          rw [moved] at frontier
          exact ⟨final, frontier.succ now⟩

end Loop

end Frontier
