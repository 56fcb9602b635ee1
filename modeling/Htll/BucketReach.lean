import Htll.MutexCalls
import Mathlib.Algebra.Order.BigOperators.Group.Finset
import Mathlib.Data.Nat.Bitwise
import Mathlib.Order.Interval.Finset.Nat

/-!
# The buckets that addresses reach

`my_hash` masks a sum of two shifts of the address with `BUCKET_SIZE - 1`. As 40960 is no power of
two, the mask has a gap: bits 13 and 14 of every bucket index are zero. The buckets that have one
of these bits set stay empty, whatever the addresses are, and `hash_put` runs out of slots as if
the table had the other buckets only.
-/

namespace Htll

/-! ## The hash value -/

/-- The sum of the two shifts. -/
def hashSum (key : BitVec 64) : ℕ := key.toNat / 2 ^ 4 + key.toNat / 2 ^ 24

/-- The mask keeps bits 0 to 12 and bit 15. -/
theorem and_mask (x : ℕ) : x &&& 40959 = 32768 * (x / 32768 % 2) + x % 8192 := by
  have hlow : (x &&& 40959) % 2 ^ 13 = x % 8192 := by
    rw [Nat.and_mod_two_pow]
    exact (Nat.and_two_pow_sub_one_eq_mod (x % 8192) 13).trans (Nat.mod_mod x 8192)
  have hhigh : (x &&& 40959) / 2 ^ 13 = 4 * (x / 32768 % 2) := by
    rw [Nat.and_div_two_pow]
    have hbit : (x / 2 ^ 13) / 2 ^ 2 = x / 32768 := Nat.div_div_eq_div_mul x (2 ^ 13) (2 ^ 2)
    have hand : x / 2 ^ 13 &&& 2 ^ 2 = ((x / 2 ^ 13).testBit 2).toNat * 2 ^ 2 := Nat.and_two_pow _ _
    rw [Nat.testBit_eq_decide_div_mod_eq, hbit] at hand
    refine hand.trans ?_
    by_cases hodd : x / 32768 % 2 = 1
    · rw [hodd]
      rfl
    · have hzero : x / 32768 % 2 = 0 := by omega
      rw [hzero]
      rfl
  have hsplit := Nat.div_add_mod (x &&& 40959) (2 ^ 13)
  rw [hlow, hhigh] at hsplit
  omega

/-- The hash value in numbers: the sum does not overflow, and the mask has a gap. -/
theorem toNat_myHash (key : BitVec 64) :
    (myHash key).toNat = 32768 * (hashSum key / 32768 % 2) + hashSum key % 8192 := by
  have hlt : hashSum key < 2 ^ 64 := by
    have hkey := key.isLt
    unfold hashSum
    omega
  have hmask : (BitVec.ofNat 64 bucketSize - 1).toNat = 40959 := by decide
  have hsum : (key >>> 4 + key >>> 24).toNat = hashSum key := by
    rw [BitVec.toNat_add, BitVec.toNat_ushiftRight, BitVec.toNat_ushiftRight,
      Nat.shiftRight_eq_div_pow, Nat.shiftRight_eq_div_pow]
    exact Nat.mod_eq_of_lt hlt
  rw [myHash, BitVec.toNat_and, hsum, hmask, and_mask]

/-- No address has a hash value in the gap. -/
theorem myHash_reaches (key : BitVec 64) :
    (myHash key).toNat < 8192 ∨ 32768 ≤ (myHash key).toNat := by
  rw [toNat_myHash]
  omega

/-- The address of number `k` for a bucket; those for one bucket are 2 ^ 40 bytes apart. -/
def addressFor (b k : ℕ) : BitVec 64 := BitVec.ofNat 64 (16 * b + 2 ^ 40 * (k + 1))

section Addresses

variable {b k : ℕ}

/-- Ten of them fit into 64 bits. -/
theorem toNat_addressFor (hb : b < bucketSize) (hk : k < 10) :
    (addressFor b k).toNat = 16 * b + 2 ^ 40 * (k + 1) := by
  have hsize : bucketSize = 40960 := rfl
  rw [addressFor, BitVec.toNat_ofNat]
  exact Nat.mod_eq_of_lt (by omega)

/-- None of them is null. -/
theorem addressFor_ne_zero (hb : b < bucketSize) (hk : k < 10) : addressFor b k ≠ 0 := by
  intro hnull
  have hnat := toNat_addressFor hb hk
  have hzero : (addressFor b k).toNat = 0 := congrArg BitVec.toNat hnull
  omega

/-- They have the bucket as hash value if it is not in the gap. -/
theorem myHash_addressFor (hb : b < bucketSize) (hgap : b < 8192 ∨ 32768 ≤ b) (hk : k < 10) :
    (myHash (addressFor b k)).toNat = b := by
  have hsize : bucketSize = 40960 := rfl
  rw [toNat_myHash, hashSum, toNat_addressFor hb hk]
  omega

/-- Different numbers and buckets have different addresses. -/
theorem addressFor_injective {b' k' : ℕ} (hb : b < bucketSize) (hb' : b' < bucketSize)
    (hk : k < 10) (hk' : k' < 10) (h : addressFor b k = addressFor b' k') : b = b' ∧ k = k' := by
  have hsize : bucketSize = 40960 := rfl
  have hnat := congrArg BitVec.toNat h
  rw [toNat_addressFor hb hk, toNat_addressFor hb' hk'] at hnat
  omega

end Addresses

/-! ## Room for addresses -/

/-- Puts one after the other, if all of them find a slot. -/
def hashPuts (table : LockTable) (puts : List (Addr × LockObject)) : Option LockTable :=
  puts.foldlM (fun table put => hashPut table put.1 put.2) table

/-- The buckets of the puts. -/
def bucketsOf (puts : List (Addr × LockObject)) : List ℕ := puts.map fun put => put.1.bucket

/-- How many slots of a bucket have a key. -/
def LockTable.used (table : LockTable) (b : Fin bucketSize) : ℕ :=
  SlotArray.used (fun y => decide (y.key = 0)) (table b)

section Puts

variable {table table' : LockTable} {a : Addr} {v : LockObject}

/-- There are no more used slots than slots. -/
theorem LockTable.used_le (table : LockTable) (b : Fin bucketSize) :
    table.used b ≤ bucketLength := SlotArray.used_le _ _

/-- A put fails if all slots of the bucket are used. -/
theorem hashPut_eq_none_iff : hashPut table a v = none ↔ table.used a.bucket = bucketLength := by
  rw [hashPut, Option.map_eq_none_iff, SlotArray.place_eq_none_iff]
  rfl

/-- A put uses one more slot of its bucket. -/
theorem used_hashPut (hput : hashPut table a v = some table') (b : Fin bucketSize) :
    table'.used b = table.used b + [(a.bucket : ℕ)].count (b : ℕ) := by
  obtain ⟨slots, hplace, rfl⟩ := Option.map_eq_some_iff.mp hput
  have hused : SlotArray.used (fun y : Slot => decide (y.key = 0)) slots =
      SlotArray.used (fun y : Slot => decide (y.key = 0)) (table a.bucket) + 1 := by
    refine SlotArray.used_place ?_ hplace
    exact decide_eq_false a.2
  by_cases hb : b = a.bucket
  · subst hb
    rw [LockTable.used, LockTable.used, Function.update_self, hused, List.count_singleton_self]
  · have hne : (b : ℕ) ≠ (a.bucket : ℕ) := fun heq => hb (Fin.ext heq)
    rw [LockTable.used, LockTable.used, Function.update_of_ne hb]
    simp [hne.symm]

/-- All puts find a slot exactly if none of the buckets gets more than it has room for. -/
theorem isSome_hashPuts_iff (table : LockTable) (puts : List (Addr × LockObject)) :
    (hashPuts table puts).isSome = true ↔
      ∀ b : Fin bucketSize, table.used b + (bucketsOf puts).count (b : ℕ) ≤ bucketLength := by
  induction puts generalizing table with
  | nil => exact iff_of_true rfl fun b => table.used_le b
  | cons put rest ih =>
    obtain ⟨a, v⟩ := put
    have hcount : ∀ b : ℕ, (bucketsOf ((a, v) :: rest)).count b =
        [(a.bucket : ℕ)].count b + (bucketsOf rest).count b := by
      intro b
      rw [← List.count_append]
      rfl
    simp only [hashPuts, List.foldlM_cons, hcount]
    cases hput : hashPut table a v with
    | none =>
      refine iff_of_false Bool.false_ne_true fun hroom => ?_
      have hle := hroom a.bucket
      rw [hashPut_eq_none_iff.mp hput, List.count_singleton_self] at hle
      omega
    | some table' =>
      refine (ih table').trans (forall_congr' fun b => ?_)
      rw [used_hashPut hput, Nat.add_assoc]

end Puts

/-- The empty table. -/
def emptyTable : LockTable := fun _ _ => Slot.clear

/-- Puts into the empty table find a slot as long as no bucket gets more than ten. -/
theorem isSome_hashPuts_emptyTable_iff (puts : List (Addr × LockObject)) :
    (hashPuts emptyTable puts).isSome = true ↔
      ∀ b : Fin bucketSize, (bucketsOf puts).count (b : ℕ) ≤ bucketLength := by
  have hzero : ∀ b, emptyTable.used b = 0 := fun b => by
    simp [LockTable.used, SlotArray.used, emptyTable, Slot.clear]
  simp only [isSome_hashPuts_iff, hzero, Nat.zero_add]

/-- The buckets outside the gap of the mask. -/
def reachedBuckets : Finset ℕ := Finset.range 8192 ∪ Finset.Ico 32768 40960

/-- There are 16384 of them. -/
theorem card_reachedBuckets : reachedBuckets.card = 16384 := by
  have hdisjoint : Disjoint (Finset.range 8192) (Finset.Ico 32768 40960) := by
    refine Finset.disjoint_left.mpr fun b hlow hhigh => ?_
    rw [Finset.mem_range] at hlow
    rw [Finset.mem_Ico] at hhigh
    omega
  rw [reachedBuckets, Finset.card_union_of_disjoint hdisjoint, Finset.card_range, Nat.card_Ico]

/-- Every address has its bucket there. -/
theorem bucket_mem_reachedBuckets (a : Addr) : (a.bucket : ℕ) ∈ reachedBuckets := by
  have hlt : (myHash a.1).toNat < 40960 := myHash_lt a.1
  rw [reachedBuckets, Finset.mem_union, Finset.mem_range, Finset.mem_Ico]
  exact (myHash_reaches a.1).imp id fun hle => ⟨hle, hlt⟩

/-- The slots of the buckets outside the gap; the table has 409600. -/
def reachedSlots : ℕ := 163840

/-- Puts that all find a slot are no more than these. -/
theorem length_le_of_isSome {puts : List (Addr × LockObject)}
    (h : (hashPuts emptyTable puts).isSome = true) : puts.length ≤ reachedSlots := by
  have hroom := (isSome_hashPuts_emptyTable_iff puts).mp h
  have hmem : ∀ b ∈ (bucketsOf puts : Multiset ℕ), b ∈ reachedBuckets := by
    intro b hb
    obtain ⟨put, -, rfl⟩ := List.mem_map.mp (Multiset.mem_coe.mp hb)
    exact bucket_mem_reachedBuckets put.1
  have hcount : ∀ b ∈ reachedBuckets, (bucketsOf puts : Multiset ℕ).count b ≤ bucketLength := by
    intro b hb
    have hlt : b < bucketSize := by
      rw [reachedBuckets, Finset.mem_union, Finset.mem_range, Finset.mem_Ico] at hb
      have hsize : bucketSize = 40960 := rfl
      omega
    exact (Multiset.coe_count b _).trans_le (hroom ⟨b, hlt⟩)
  calc puts.length = (bucketsOf puts : Multiset ℕ).card := by simp [bucketsOf]
    _ = ∑ b ∈ reachedBuckets, (bucketsOf puts : Multiset ℕ).count b :=
      (Multiset.sum_count_eq_card hmem).symm
    _ ≤ ∑ _b ∈ reachedBuckets, bucketLength := Finset.sum_le_sum hcount
    _ = reachedBuckets.card * bucketLength := Finset.sum_const_nat fun _ _ => rfl
    _ = reachedSlots := by rw [card_reachedBuckets]; rfl

/-! ## Addresses for all slots -/

/-- The buckets outside the gap in order. -/
def reachedBucket (j : ℕ) : ℕ := if j < 8192 then j else j + 24576

/-- The first 16384 of them exist. -/
theorem reachedBucket_lt {j : ℕ} (hj : j < 16384) : reachedBucket j < bucketSize := by
  have hsize : bucketSize = 40960 := rfl
  unfold reachedBucket
  split <;> omega

/-- None of them is in the gap. -/
theorem reachedBucket_gap (j : ℕ) : reachedBucket j < 8192 ∨ 32768 ≤ reachedBucket j := by
  unfold reachedBucket
  split <;> omega

/-- They are different. -/
theorem reachedBucket_injective : Function.Injective reachedBucket := by
  intro j j' h
  unfold reachedBucket at h
  split at h <;> split at h <;> omega

section Filling

variable (m : Fin reachedSlots)

/-- The bucket of an address that fills the table. -/
theorem fillingBucket_lt : reachedBucket (m / 10) < bucketSize := by
  have hlt : (m : ℕ) < 163840 := m.isLt
  exact reachedBucket_lt (by omega)

/-- Its number within the bucket. -/
theorem fillingNumber_lt : (m : ℕ) % 10 < 10 := Nat.mod_lt _ (by decide)

/-- Addresses that fill the buckets outside the gap one after the other, ten for each. -/
def fillingAddress : Addr :=
  ⟨addressFor (reachedBucket (m / 10)) (m % 10),
    addressFor_ne_zero (fillingBucket_lt m) (fillingNumber_lt m)⟩

/-- An address is in its bucket. -/
theorem bucket_fillingAddress : ((fillingAddress m).bucket : ℕ) = reachedBucket (m / 10) :=
  myHash_addressFor (fillingBucket_lt m) (reachedBucket_gap _) (fillingNumber_lt m)

end Filling

/-- They are different. -/
theorem fillingAddress_injective : Function.Injective fillingAddress := by
  intro m m' h
  have haddress : (fillingAddress m).1 = (fillingAddress m').1 := by rw [h]
  obtain ⟨hbucket, hnumber⟩ := addressFor_injective (fillingBucket_lt m) (fillingBucket_lt m')
    (fillingNumber_lt m) (fillingNumber_lt m') haddress
  have hdiv := reachedBucket_injective hbucket
  apply Fin.ext
  rw [← Nat.div_add_mod (m : ℕ) 10, ← Nat.div_add_mod (m' : ℕ) 10, hdiv, hnumber]

/-- Every quotient by ten is that of ten numbers. -/
theorem count_div_ten (n j : ℕ) : ((List.range n).map (· / 10)).count j ≤ 10 := by
  have hcount : ((List.range n).map (· / 10)).count j = min 10 (n - 10 * j) := by
    induction n with
    | zero => simp
    | succ n ih =>
      rw [List.range_succ, List.map_append, List.count_append, ih, List.map_singleton]
      by_cases hn : n / 10 = j
      · rw [hn, List.count_singleton_self]
        omega
      · rw [List.count_eq_zero_of_not_mem (fun hmem => hn (List.mem_singleton.mp hmem).symm)]
        omega
  rw [hcount]
  exact Nat.min_le_left _ _

/-- The puts of the first of these addresses. -/
def fillingPuts (n : ℕ) : List (Addr × LockObject) :=
  ((List.finRange reachedSlots).take n).map fun m => (fillingAddress m, (m : ℕ))

/-- All of them find a slot. -/
theorem isSome_fillingPuts (n : ℕ) : (hashPuts emptyTable (fillingPuts n)).isSome = true := by
  refine (isSome_hashPuts_emptyTable_iff _).mpr fun b => ?_
  have hbuckets : bucketsOf (fillingPuts n) =
      ((List.finRange reachedSlots).take n).map fun m : Fin reachedSlots =>
        reachedBucket (m / 10) := by
    simp only [bucketsOf, fillingPuts, List.map_map, Function.comp_def, bucket_fillingAddress]
  have hsublist : (bucketsOf (fillingPuts n)).Sublist
      (((List.range reachedSlots).map (· / 10)).map reachedBucket) := by
    rw [hbuckets, ← List.map_coe_finRange_eq_range, List.map_map, List.map_map]
    exact (List.take_sublist n _).map _
  refine (hsublist.count_le _).trans ?_
  by_cases hb : ∃ j, reachedBucket j = b
  · obtain ⟨j, hj⟩ := hb
    rw [← hj, List.count_map_of_injective _ _ reachedBucket_injective]
    exact count_div_ten reachedSlots j
  · rw [List.count_eq_zero_of_not_mem fun hmem => ?_]
    · exact Nat.zero_le _
    · obtain ⟨j, -, hj⟩ := List.mem_map.mp hmem
      exact hb ⟨j, hj⟩

/-! ## The whole table -/

/-- Every hash value is a bucket index, and a bucket is that of some address exactly if it is not
in the gap of the mask; so as many addresses as the buckets outside the gap have slots, and no
more, can be put into the table. -/
theorem buckets_reached_iff (key : BitVec 64) (b : Fin bucketSize) (n : ℕ) :
    (myHash key).toNat < bucketSize ∧
    ((∃ address : BitVec 64, (myHash address).toNat = b) ↔ (b : ℕ) < 8192 ∨ 32768 ≤ (b : ℕ)) ∧
    ((∃ puts : List (Addr × LockObject), (puts.map Prod.fst).Nodup ∧ puts.length = n ∧
      (hashPuts emptyTable puts).isSome = true) ↔ n ≤ reachedSlots) := by
  refine ⟨myHash_lt key, ⟨?_, fun hgap => ?_⟩, ?_, fun hn => ?_⟩
  · rintro ⟨address, haddress⟩
    exact haddress ▸ myHash_reaches address
  · exact ⟨addressFor b 0, myHash_addressFor b.isLt hgap (by decide)⟩
  · rintro ⟨puts, -, rfl, hsome⟩
    exact length_le_of_isSome hsome
  · refine ⟨fillingPuts n, ?_, ?_, isSome_fillingPuts n⟩
    · rw [fillingPuts, List.map_map]
      exact ((List.nodup_finRange reachedSlots).sublist (List.take_sublist n _)).map
        fillingAddress_injective
    · rw [fillingPuts, List.length_map, List.length_take, List.length_finRange]
      exact Nat.min_eq_left hn

/-- The first bucket of the gap is in the table and is the bucket of no address. -/
theorem bucket_in_gap_unreached :
    8192 < bucketSize ∧ ∀ key : BitVec 64, (myHash key).toNat ≠ 8192 := by
  refine ⟨by decide, fun key heq => ?_⟩
  have hreaches := myHash_reaches key
  omega

end Htll
