/-
Where the rows of the MovR workload live (`execution/movr/load_tables.cpp`, `workload/movr.cpp`,
`common/sharder.cpp`, `execution/movr/metadata_initializer.cpp`).
-/

import Mathlib

namespace Slog.Movr

def kPartitionBits : Nat := 16

def kDefaultUsers : Nat := 10000
def kDefaultVehicles : Nat := 5000
def kDefaultRides : Nat := 30000
def kDefaultHistories : Nat := 50000
def kDefaultUserPromoCodes : Nat := 20000

/-- The id of a record in `uint64_t`: the city in the top `partitionBits` bits, the local id in
the others. -/
def globalId (partitionBits cityIndex localId : Nat) : Nat :=
  (cityIndex <<< (64 - partitionBits)) % 2 ^ 64 ||| localId &&& ((1 <<< (64 - partitionBits)) - 1)

/-- `PartitionedMovrDataLoader::GenerateGlobalId`, which the loader calls with its default of 16
bits. -/
def PartitionedMovrDataLoader.generateGlobalId (cityIndex localId : Nat) : Nat := globalId 16 cityIndex localId

/-- `GenerateGlobalId` of the workload. -/
def generateGlobalId (cityIndex localId : Nat) : Nat := globalId kPartitionBits cityIndex localId

/-- `DataGenerator::EnsureFixedLength<N>`: truncated or padded with spaces to `N` characters. -/
def ensureFixedLength (n : Nat) (input : String) : String :=
  if input.length = n then input
  else if n < input.length then String.ofList (input.toList.take n)
  else String.ofList (input.toList ++ List.replicate (n - input.length) ' ')

/-- The name of city `i`, as the loader and `GetPartitionCities` write it. -/
def cityName (i : Nat) : String := ensureFixedLength 64 ("city_" ++ toString i)

/-- `GetCityIndex`: `std::stoi` of the name from its sixth character, which reads the digits
there; no digit at all is an error. -/
def getCityIndex (city : String) : Except String Nat :=
  match (city.toList.drop 5).takeWhile Char.isDigit with
  | [] => .error "stoi"
  | digits => .ok (digits.foldl (fun value digit => 10 * value + (digit.toNat - '0'.toNat)) 0)

/-- `GetNumRegions` of the workload: with one region, the number of its replicas. -/
def getNumRegions (numRegions numLocalReplicas : Nat) : Nat :=
  if numRegions = 1 then numLocalReplicas else numRegions

def getRegionFromCity (cityIndex numPartitions numRegions : Nat) : Nat := (cityIndex / numPartitions) % numRegions

def getPartitionFromCity (cityIndex numPartitions : Nat) : Nat := cityIndex % numPartitions

/-- The first primary-key column of a row, which starts its storage key. -/
inductive Scalar where
  | int64 (value : Nat)
  | fixedText (text : String)
  deriving DecidableEq, Repr

/-- The first 8 bytes of a storage key read as a little-endian `uint64_t`: an `Int64` column's
value, or the first 8 characters of a text column (the names are ASCII). -/
def Scalar.leadingWord : Scalar → Nat
  | .int64 value => value % 2 ^ 64
  | .fixedText text => (text.toList.take 8).foldr (fun char word => char.toNat % 256 + 256 * word) 0

/-- The city that `MovrSharder` and `MovrMetadataInitializer` read from a key: the top 16 bits,
cast to `uint32_t`. -/
def cityOfKey (key : Scalar) : Nat := (key.leadingWord >>> (64 - 16)) % 2 ^ 32

def MovrSharder.computePartition (numPartitions : Nat) (key : Scalar) : Nat := cityOfKey key % numPartitions

def MovrMetadataInitializer.compute (numRegions numPartitions : Nat) (key : Scalar) : Nat :=
  (cityOfKey key / numPartitions) % numRegions

/-- The cities of a partition in `LoadTables` and `GetPartitionCities`. -/
def partitionCities (cities numPartitions partition : Nat) : List String :=
  ((List.range cities).filter fun i => i % numPartitions = partition).map cityName

/-- The tables the loader fills city by city. -/
inductive MovrTable where
  | users
  | vehicles
  | rides
  | vehicleLocationHistories
  | userPromoCodes
  deriving DecidableEq, Repr

/-- A loaded row as placement reads it: its table, its city and the first column of its primary
key. The other columns are random or copies and are left out. -/
structure LoadedRow where
  table : MovrTable
  city : String
  leading : Scalar
  deriving DecidableEq, Repr

/-- `num_X_ / partition_cities_.size()`, the records of each city; a partition with no city
divides by zero. -/
def perCity (total : Nat) (cities : List String) : Except String Nat :=
  if cities.length = 0 then .error "integer division by zero" else .ok (total / cities.length)

/-- The rows of `LoadUsers`, `LoadVehicles` and `LoadRides`: records `1` to `count` of each city,
keyed by the id the loader builds from the city's position in the partition's list. -/
def keyedRows (table : MovrTable) (cities : List String) (count : Nat) : List LoadedRow :=
  cities.zipIdx.flatMap fun (city, cityIdx) =>
    (List.range' 1 count).map fun localId => ⟨table, city, .int64 (PartitionedMovrDataLoader.generateGlobalId cityIdx localId)⟩

/-- The rows of `LoadHistories` and `LoadUserCodes`: `count` of each city, keyed first by the
city's name. -/
def cityRows (table : MovrTable) (cities : List String) (count : Nat) : List LoadedRow :=
  cities.flatMap fun city => List.replicate count ⟨table, city, .fixedText city⟩

def loadKeyedRows (table : MovrTable) (cities : List String) (total : Nat) : Except String (List LoadedRow) := do
  let count ← perCity total cities
  pure (keyedRows table cities count)

def loadCityRows (table : MovrTable) (cities : List String) (total : Nat) : Except String (List LoadedRow) := do
  let count ← perCity total cities
  pure (cityRows table cities count)

def loadUsers (cities : List String) (numUsers : Nat) : Except String (List LoadedRow) :=
  loadKeyedRows .users cities numUsers

def loadVehicles (cities : List String) (numVehicles : Nat) : Except String (List LoadedRow) :=
  loadKeyedRows .vehicles cities numVehicles

def loadRides (cities : List String) (numRides : Nat) : Except String (List LoadedRow) :=
  loadKeyedRows .rides cities numRides

def loadHistories (cities : List String) (numHistories : Nat) : Except String (List LoadedRow) :=
  loadCityRows .vehicleLocationHistories cities numHistories

def loadUserCodes (cities : List String) (numUserCodes : Nat) : Except String (List LoadedRow) :=
  loadCityRows .userPromoCodes cities numUserCodes

/-- `LoadTables` for one partition, with the totals of each table spread over the cities. The
promo codes, keyed by random codes and not by city, are left out. -/
def loadTables (cities numPartitions partition : Nat) : Except String (List LoadedRow) :=
  if cities = 0 then .error "integer division by zero"
  else do
    let partitionCities := partitionCities cities numPartitions partition
    let users ← loadUsers partitionCities (kDefaultUsers / cities)
    let vehicles ← loadVehicles partitionCities (kDefaultVehicles / cities)
    let rides ← loadRides partitionCities (kDefaultRides / cities)
    let histories ← loadHistories partitionCities (kDefaultHistories / cities)
    let userCodes ← loadUserCodes partitionCities (kDefaultUserPromoCodes / cities)
    pure (users ++ vehicles ++ rides ++ histories ++ userCodes)

section Ids

/-- An id built with 16 bits for the city: the city modulo `2 ^ 16` above the local id modulo
`2 ^ 48`. -/
theorem globalId_eq (cityIndex localId : Nat) :
    globalId 16 cityIndex localId = cityIndex % 2 ^ 16 * 2 ^ 48 + localId % 2 ^ 48 := by
  have high : (cityIndex <<< 48) % 2 ^ 64 = (cityIndex % 2 ^ 16) <<< 48 := by
    rw [Nat.shiftLeft_eq, Nat.shiftLeft_eq, show (2 : Nat) ^ 64 = 2 ^ 16 * 2 ^ 48 by norm_num,
      Nat.mul_mod_mul_right]
  rw [globalId, show 64 - 16 = 48 from rfl, high, Nat.one_shiftLeft, Nat.and_two_pow_sub_one_eq_mod,
    ← Nat.shiftLeft_add_eq_or_of_lt (Nat.mod_lt _ (by positivity)), Nat.shiftLeft_eq]

/-- The sharder and the metadata read back the city an id was built with, modulo `2 ^ 16`. -/
theorem cityOfKey_globalId (cityIndex localId : Nat) :
    cityOfKey (.int64 (globalId 16 cityIndex localId)) = cityIndex % 2 ^ 16 := by
  have high := Nat.mod_lt cityIndex (show 0 < 2 ^ 16 by positivity)
  have low := Nat.mod_lt localId (show 0 < 2 ^ 48 by positivity)
  have below : globalId 16 cityIndex localId < 2 ^ 64 := by
    rw [globalId_eq]
    calc cityIndex % 2 ^ 16 * 2 ^ 48 + localId % 2 ^ 48 < cityIndex % 2 ^ 16 * 2 ^ 48 + 2 ^ 48 := by omega
      _ = (cityIndex % 2 ^ 16 + 1) * 2 ^ 48 := by ring
      _ ≤ 2 ^ 16 * 2 ^ 48 := Nat.mul_le_mul_right _ high
      _ = 2 ^ 64 := by norm_num
  rw [cityOfKey, Scalar.leadingWord, Nat.mod_eq_of_lt below, globalId_eq, Nat.shiftRight_eq_div_pow,
    show 64 - 16 = 48 from rfl, Nat.mul_comm, Nat.mul_add_div (by positivity), Nat.div_eq_of_lt low, Nat.add_zero,
    Nat.mod_eq_of_lt (lt_trans high (by norm_num))]

end Ids

section Residues

variable {P p : Nat}

/-- In a run of at most `P` numbers from one of residue `p`, only the first has residue `p`. -/
theorem filter_residue_block {base t : Nat} (residue : base % P = p) (short : t ≤ P) :
    ((List.range t).map (base + ·)).filter (fun i => i % P = p) = if t = 0 then [] else [base] := by
  cases t with
  | zero => rfl
  | succ rest =>
      rw [if_neg (Nat.succ_ne_zero rest), List.range_succ_eq_map, List.map_cons, List.filter_cons, List.map_map]
      have later : ((List.range rest).map ((base + ·) ∘ Nat.succ)).filter (fun i => i % P = p) = [] := by
        refine List.filter_eq_nil_iff.mpr fun i listed => ?_
        obtain ⟨s, below, rfl⟩ := List.mem_map.mp listed
        simp only [Function.comp, decide_eq_true_eq]
        intro same
        have shifted : base + (s + 1) ≡ base + 0 [MOD P] := by
          rw [Nat.ModEq, same, Nat.add_zero, residue]
        have divides := Nat.modEq_zero_iff_dvd.mp (Nat.ModEq.add_left_cancel' base shifted)
        have := Nat.le_of_dvd (Nat.succ_pos s) divides
        rw [List.mem_range] at below
        omega
      simp [residue, later]

/-- The numbers below `p + k * P` of residue `p < P` are `p, p + P, …, p + (k - 1) * P`. -/
theorem filter_range_residue (below : p < P) (k : Nat) :
    (List.range (p + k * P)).filter (fun i => i % P = p) = List.range' p k P := by
  induction k with
  | zero =>
      refine List.filter_eq_nil_iff.mpr fun i listed => ?_
      rw [List.mem_range, Nat.zero_mul, Nat.add_zero] at listed
      rw [Nat.mod_eq_of_lt (by omega), decide_eq_true_eq]
      omega
  | succ k ih =>
      have residue : (p + k * P) % P = p := by rw [Nat.add_mul_mod_self_right, Nat.mod_eq_of_lt below]
      rw [show p + (k + 1) * P = (p + k * P) + P by ring, List.range_add, List.filter_append, ih,
        filter_residue_block residue (Nat.le_refl P), if_neg (by omega), List.range'_concat, Nat.mul_comm P k]

/-- The numbers below `C` of residue `p < P` are `p, p + P, …`, as many as lie below `C`. -/
theorem filter_range_residue_eq (below : p < P) (C : Nat) :
    ∃ count, (List.range C).filter (fun i => i % P = p) = List.range' p count P ∧
      ∀ j, j < count ↔ p + j * P < C := by
  by_cases none : C ≤ p
  · refine ⟨0, List.filter_eq_nil_iff.mpr fun i listed => ?_, fun j => ?_⟩
    · rw [List.mem_range] at listed
      rw [Nat.mod_eq_of_lt (by omega), decide_eq_true_eq]
      omega
    · omega
  · have positive : 0 < P := by omega
    obtain ⟨k, t, split, short⟩ : ∃ k t, C = p + k * P + t ∧ t < P :=
      ⟨(C - p) / P, (C - p) % P, by have := Nat.div_add_mod (C - p) P; rw [Nat.mul_comm] at this; omega,
        Nat.mod_lt _ positive⟩
    have residue : (p + k * P) % P = p := by rw [Nat.add_mul_mod_self_right, Nat.mod_eq_of_lt below]
    rw [split, List.range_add, List.filter_append, filter_range_residue below,
      filter_residue_block residue short.le]
    by_cases empty : t = 0
    · subst empty
      refine ⟨k, by simp, fun j => ?_⟩
      rw [Nat.add_zero, Nat.add_lt_add_iff_left]
      exact (Nat.mul_lt_mul_right positive).symm
    · refine ⟨k + 1, by rw [if_neg empty, List.range'_concat, Nat.mul_comm P k], fun j => ?_⟩
      constructor
      · intro within
        have := Nat.mul_le_mul_right P (Nat.le_of_lt_succ within)
        omega
      · intro within
        by_contra beyond
        have := Nat.mul_le_mul_right P (Nat.not_lt.mp beyond)
        rw [Nat.add_mul, Nat.one_mul] at this
        omega

/-- The city at position `j` of a partition's list is city `p + j * P`, if that is below `C`. -/
theorem getElem?_partitionCities (below : p < P) (C j : Nat) :
    (partitionCities C P p)[j]? = if p + j * P < C then some (cityName (p + j * P)) else none := by
  obtain ⟨count, listed, within⟩ := filter_range_residue_eq below C
  rw [partitionCities, listed, List.getElem?_map]
  by_cases inside : j < count
  · rw [List.getElem?_range' inside, if_pos ((within j).mp inside), Nat.mul_comm P j]
    rfl
  · rw [List.getElem?_eq_none (by rw [List.length_range']; omega), if_neg (fun reached => inside ((within j).mpr reached))]
    rfl

theorem mem_zipIdx_partitionCities (below : p < P) {C j : Nat} {city : String} :
    (city, j) ∈ (partitionCities C P p).zipIdx ↔ p + j * P < C ∧ city = cityName (p + j * P) := by
  rw [List.mem_zipIdx_iff_getElem?, getElem?_partitionCities below]
  by_cases inside : p + j * P < C
  · simp [inside, eq_comm]
  · simp [inside]

end Residues

section Loading

variable {C P p : Nat} {rows : List LoadedRow} {row : LoadedRow}

theorem mem_keyedRows {table : MovrTable} {cities : List String} {count : Nat} :
    row ∈ keyedRows table cities count ↔ ∃ city cityIdx localId, (city, cityIdx) ∈ cities.zipIdx ∧ 1 ≤ localId ∧
      localId ≤ count ∧ row = ⟨table, city, .int64 (PartitionedMovrDataLoader.generateGlobalId cityIdx localId)⟩ := by
  simp only [keyedRows, List.mem_flatMap, List.mem_map, List.mem_range', Prod.exists]
  constructor
  · rintro ⟨city, cityIdx, listed, localId, ⟨i, below, rfl⟩, rfl⟩
    exact ⟨city, cityIdx, 1 + 1 * i, listed, by omega, by omega, rfl⟩
  · rintro ⟨city, cityIdx, localId, listed, low, high, rfl⟩
    exact ⟨city, cityIdx, listed, localId, ⟨localId - 1, by omega, by omega⟩, rfl⟩

theorem table_of_mem_cityRows {table : MovrTable} {cities : List String} {count : Nat}
    (member : row ∈ cityRows table cities count) : row.table = table := by
  obtain ⟨city, -, listed⟩ := List.mem_flatMap.mp member
  rw [(List.mem_replicate.mp listed).2]

/-- A partition with a city loads each table's rows for every city of the partition. -/
theorem loadTables_ok (positive : C ≠ 0) (nonempty : partitionCities C P p ≠ []) :
    loadTables C P p = .ok
      (keyedRows .users (partitionCities C P p) (kDefaultUsers / C / (partitionCities C P p).length) ++
        keyedRows .vehicles (partitionCities C P p) (kDefaultVehicles / C / (partitionCities C P p).length) ++
        keyedRows .rides (partitionCities C P p) (kDefaultRides / C / (partitionCities C P p).length) ++
        cityRows .vehicleLocationHistories (partitionCities C P p)
          (kDefaultHistories / C / (partitionCities C P p).length) ++
        cityRows .userPromoCodes (partitionCities C P p)
          (kDefaultUserPromoCodes / C / (partitionCities C P p).length)) := by
  have counted : ∀ total, perCity total (partitionCities C P p) = .ok (total / (partitionCities C P p).length) :=
    fun total => by rw [perCity, if_neg (fun empty => nonempty (List.length_eq_zero_iff.mp empty))]
  simp only [loadTables, positive, ↓reduceIte, loadUsers, loadVehicles, loadRides, loadHistories, loadUserCodes,
    loadKeyedRows, loadCityRows, counted, bind, Except.bind, pure, Except.pure]

/-- A partition with no city, when there are fewer cities than partitions, divides by zero. -/
theorem loadTables_without_city (positive : C ≠ 0) (empty : partitionCities C P p = []) :
    loadTables C P p = .error "integer division by zero" := by
  simp [loadTables, positive, loadUsers, loadKeyedRows, perCity, empty, bind, Except.bind]

/-- A row of users, vehicles or rides among a partition's rows is keyed by the id of a city of
the partition's list, built from the city's position. -/
theorem keyed_of_mem {cities : List String} {users vehicles rides histories userCodes : Nat}
    (member : row ∈ keyedRows .users cities users ++ keyedRows .vehicles cities vehicles ++
      keyedRows .rides cities rides ++ cityRows .vehicleLocationHistories cities histories ++
      cityRows .userPromoCodes cities userCodes)
    (keyed : row.table = .users ∨ row.table = .vehicles ∨ row.table = .rides) :
    ∃ city cityIdx localId, (city, cityIdx) ∈ cities.zipIdx ∧ row.city = city ∧
      row.leading = .int64 (PartitionedMovrDataLoader.generateGlobalId cityIdx localId) := by
  simp only [List.mem_append] at member
  rcases member with (((inUsers | inVehicles) | inRides) | inHistories) | inUserCodes
  · obtain ⟨city, cityIdx, localId, listed, -, -, rfl⟩ := mem_keyedRows.mp inUsers
    exact ⟨city, cityIdx, localId, listed, rfl, rfl⟩
  · obtain ⟨city, cityIdx, localId, listed, -, -, rfl⟩ := mem_keyedRows.mp inVehicles
    exact ⟨city, cityIdx, localId, listed, rfl, rfl⟩
  · obtain ⟨city, cityIdx, localId, listed, -, -, rfl⟩ := mem_keyedRows.mp inRides
    exact ⟨city, cityIdx, localId, listed, rfl, rfl⟩
  · rw [table_of_mem_cityRows inHistories] at keyed
    simp at keyed
  · rw [table_of_mem_cityRows inUserCodes] at keyed
    simp at keyed

/-- Every row that partition `p` loads into users, vehicles or rides is a record of a city
`i < C` of residue `p`. It is keyed by the id the loader builds from `i / P`, where the workload
uses `i`, and the sharder and the metadata read `i / P` back. -/
theorem loaded_rows_placed (below : p < P) (numRegions : Nat) (small : C ≤ 2 ^ 16)
    (loaded : loadTables C P p = .ok rows) (member : row ∈ rows)
    (keyed : row.table = .users ∨ row.table = .vehicles ∨ row.table = .rides) :
    ∃ i localId, i < C ∧ i % P = p ∧ row.city = cityName i ∧
      row.leading = .int64 (PartitionedMovrDataLoader.generateGlobalId (i / P) localId) ∧
      MovrSharder.computePartition P row.leading = (i / P) % P ∧
      MovrMetadataInitializer.compute numRegions P row.leading = (i / P / P) % numRegions := by
  have positive : C ≠ 0 := by
    rintro rfl
    simp [loadTables] at loaded
  have nonempty : partitionCities C P p ≠ [] := fun empty => by
    rw [loadTables_without_city positive empty] at loaded
    cases loaded
  rw [loadTables_ok positive nonempty] at loaded
  cases loaded
  obtain ⟨city, cityIdx, localId, listed, named, leading⟩ := keyed_of_mem member keyed
  obtain ⟨within, rfl⟩ := (mem_zipIdx_partitionCities below).mp listed
  have quotient : (p + cityIdx * P) / P = cityIdx := by
    rw [Nat.add_mul_div_right _ _ (by omega), Nat.div_eq_of_lt below, Nat.zero_add]
  have residue : (p + cityIdx * P) % P = p := by rw [Nat.add_mul_mod_self_right, Nat.mod_eq_of_lt below]
  have fits : cityIdx < 2 ^ 16 := by
    have := Nat.le_mul_of_pos_right cityIdx (show 0 < P by omega)
    omega
  have city : cityOfKey row.leading = cityIdx := by
    rw [leading, PartitionedMovrDataLoader.generateGlobalId, cityOfKey_globalId, Nat.mod_eq_of_lt fits]
  refine ⟨p + cityIdx * P, localId, within, residue, named, by rw [quotient, leading], ?_, ?_⟩
  · rw [MovrSharder.computePartition, city, quotient]
  · rw [MovrMetadataInitializer.compute, city, quotient]

/-- City 2 is second on partition 0 of two, so the loader numbers its users with city 1. -/
theorem city_two_user_loaded : ∃ rows, loadTables 3 2 0 = .ok rows ∧
    ⟨.users, cityName 2, .int64 (PartitionedMovrDataLoader.generateGlobalId 1 1)⟩ ∈ rows := by
  have second : (cityName 2, 1) ∈ (partitionCities 3 2 0).zipIdx :=
    (mem_zipIdx_partitionCities (by decide)).mpr ⟨by decide, rfl⟩
  have users : ⟨.users, cityName 2, .int64 (PartitionedMovrDataLoader.generateGlobalId 1 1)⟩ ∈
      keyedRows .users (partitionCities 3 2 0) (kDefaultUsers / 3 / (partitionCities 3 2 0).length) :=
    mem_keyedRows.mpr ⟨cityName 2, 1, 1, second, Nat.le_refl 1, by decide, rfl⟩
  exact ⟨_, loadTables_ok (by decide) (by decide), by simp [users]⟩

theorem city_two_user_placed : 0 < 2 ∧ 3 ≤ 2 ^ 16 ∧ ∃ rows, loadTables 3 2 0 = .ok rows ∧
    (⟨.users, cityName 2, .int64 (PartitionedMovrDataLoader.generateGlobalId 1 1)⟩ : LoadedRow) ∈ rows ∧
    ∃ i localId, i < 3 ∧ i % 2 = 0 ∧ cityName 2 = cityName i ∧
      Scalar.int64 (PartitionedMovrDataLoader.generateGlobalId 1 1) =
        .int64 (PartitionedMovrDataLoader.generateGlobalId (i / 2) localId) ∧
      MovrSharder.computePartition 2 (.int64 (PartitionedMovrDataLoader.generateGlobalId 1 1)) = (i / 2) % 2 ∧
      MovrMetadataInitializer.compute 1 2 (.int64 (PartitionedMovrDataLoader.generateGlobalId 1 1)) =
        (i / 2 / 2) % 1 := by
  obtain ⟨rows, loaded, member⟩ := city_two_user_loaded
  exact ⟨by decide, by decide, rows, loaded, member, loaded_rows_placed (by decide) 1 (by decide) loaded member (.inl rfl)⟩

end Loading

/-- With two partitions and three cities, partition 0 loads city 2 second. So its users get ids
built with city 1, which the sharder puts on partition 1 and the metadata in region 0. The
workload routes city 2 to partition 0 and region 1 and looks its users up under ids built with
city 2. The id that partition 0 gives user 1 of city 2 is the workload's id of user 1 of city 1.
Partition 1's history rows of city 1 are placed by the characters of the name, on partition 0. -/
theorem loader_misplaces_rows :
    (∃ rows, loadTables 3 2 0 = .ok rows ∧
      ⟨.users, cityName 2, .int64 (PartitionedMovrDataLoader.generateGlobalId 1 1)⟩ ∈ rows) ∧
    getCityIndex (cityName 2) = .ok 2 ∧ getPartitionFromCity 2 2 = 0 ∧ getRegionFromCity 2 2 (getNumRegions 2 1) = 1 ∧
    MovrSharder.computePartition 2 (.int64 (PartitionedMovrDataLoader.generateGlobalId 1 1)) = 1 ∧
    MovrMetadataInitializer.compute 2 2 (.int64 (PartitionedMovrDataLoader.generateGlobalId 1 1)) = 0 ∧
    generateGlobalId 2 1 ≠ PartitionedMovrDataLoader.generateGlobalId 1 1 ∧
    generateGlobalId 1 1 = PartitionedMovrDataLoader.generateGlobalId 1 1 ∧
    (∃ rows, loadTables 3 2 1 = .ok rows ∧
      ⟨.vehicleLocationHistories, cityName 1, .fixedText (cityName 1)⟩ ∈ rows) ∧
    MovrSharder.computePartition 2 (.fixedText (cityName 1)) = 0 := by
  have histories : ⟨.vehicleLocationHistories, cityName 1, .fixedText (cityName 1)⟩ ∈
      cityRows .vehicleLocationHistories (partitionCities 3 2 1)
        (kDefaultHistories / 3 / (partitionCities 3 2 1).length) :=
    List.mem_flatMap.mpr ⟨cityName 1, by decide, List.mem_replicate.mpr ⟨by decide, rfl⟩⟩
  refine ⟨city_two_user_loaded, by decide, by decide, by decide, by decide,
    by decide, by decide, by decide, ⟨_, loadTables_ok (by decide) (by decide), by simp [histories]⟩, by decide⟩

end Slog.Movr
