import FerricStore.BigEndian
import FerricStore.Dict
import Mathlib.Algebra.Order.Floor.Div

/-!
# Claim partition scheduling

A worker claims a window of its partition keys at a time. It starts behind the window before,
skips windows in which every key cools down, and goes around the list. The distance from the
cursor to a key falls by a window with every claim that does not take the key, whatever is
skipped, so a key that stays off cooldown is taken within one round of claims.
-/

set_option autoImplicit false

namespace FerricStore.ClaimScheduling

/-! ## Windows of a cycle -/

section Cycle

variable {α : Type}

/-- So many entries of a cycle from a start. -/
def window (keys : List α) (start count : ℕ) : List α :=
  (List.range count).filterMap fun offset => keys[(start+offset)%keys.length]?

theorem mem_window {keys : List α} {start count offset : ℕ} {key : α} (hoffset : offset < count)
    (hkey : keys[(start+offset)%keys.length]? = some key) : key ∈ window keys start count :=
  List.mem_filterMap.mpr ⟨offset, List.mem_range.mpr hoffset, hkey⟩

theorem window_eq_rotate {keys : List α} {start count : ℕ} (hcount : count ≤ keys.length) :
    window keys start count = (keys.rotate start).take count := by
  by_cases hpos : 0 < keys.length
  · have hmap : window keys start count = (List.range count).map fun offset =>
        keys.get ⟨(start+offset)%keys.length, Nat.mod_lt _ hpos⟩ := by
      rw [← List.filterMap_eq_map]
      exact List.filterMap_congr fun offset _ => List.getElem?_eq_getElem _
    rw [hmap]
    refine List.ext_getElem (by simp [hcount]) fun i hi _ => ?_
    simp [List.getElem_rotate, Nat.add_comm start i]
  · obtain rfl : count = 0 := by omega
    rfl

theorem window_length {keys : List α} {start count : ℕ} (hcount : count ≤ keys.length) :
    (window keys start count).length = count := by
  rw [window_eq_rotate hcount]
  simp [hcount]

theorem window_nodup {keys : List α} {start count : ℕ} (hkeys : keys.Nodup)
    (hcount : count ≤ keys.length) : (window keys start count).Nodup := by
  rw [window_eq_rotate hcount]
  exact (List.nodup_rotate.mpr hkeys).sublist (List.take_sublist _ _)

theorem window_subset (keys : List α) (start count : ℕ) : window keys start count ⊆ keys := by
  intro key hkey
  obtain ⟨offset, -, hoffset⟩ := List.mem_filterMap.mp hkey
  exact List.mem_of_getElem? hoffset

/-- The place `i` of a cycle of length `n` lies `d` places ahead of the cursor. -/
def Ahead (n cursor i d : ℕ) : Prop := d < n ∧ (cursor+d)%n = i

theorem exists_ahead {n cursor i : ℕ} (hcursor : cursor < n) (hi : i < n) :
    ∃ d, Ahead n cursor i d := by
  refine ⟨(i+n-cursor)%n, Nat.mod_lt _ (by omega), ?_⟩
  rw [Nat.add_mod_mod, show cursor+(i+n-cursor) = i+n by omega, Nat.add_mod_right,
    Nat.mod_eq_of_lt hi]

/-- Moving the cursor towards a place shortens the distance. -/
theorem Ahead.advance {n cursor i d e : ℕ} (h : Ahead n cursor i d) (he : e ≤ d) :
    Ahead n ((cursor+e)%n) i (d-e) := by
  refine ⟨by have := h.1; omega, ?_⟩
  rw [Nat.mod_add_mod, show cursor+e+(d-e) = cursor+d by omega, h.2]

/-- The first start, in steps of a window, whose window has a ready entry. -/
def readyStart (ready : α → Bool) (keys : List α) (cursor count : ℕ) : Option ℕ :=
  ((List.range keys.length).find? fun step =>
    (window keys ((cursor+step*count)%keys.length) count).any ready).map
      fun step => (cursor+step*count)%keys.length

variable {ready : α → Bool} {keys : List α} {cursor count i d : ℕ} {key : α}

/-- The window around a ready entry is found at the latest. -/
theorem readyStart_ahead (hcount : 0 < count) (h : Ahead keys.length cursor i d)
    (hkey : keys[i]? = some key) (hready : ready key = true) :
    ∃ step ≤ d/count, readyStart ready keys cursor count =
        some ((cursor+step*count)%keys.length) ∧
      (window keys ((cursor+step*count)%keys.length) count).any ready = true ∧
      (step = d/count → key ∈ window keys ((cursor+step*count)%keys.length) count) := by
  have hlast : key ∈ window keys ((cursor+d/count*count)%keys.length) count := by
    refine mem_window (Nat.mod_lt d hcount) ?_
    rw [Nat.mod_add_mod, Nat.add_assoc, Nat.div_add_mod', h.2, hkey]
  have hdiv : d/count < keys.length := (Nat.div_le_self _ _).trans_lt h.1
  obtain ⟨step, hstep⟩ : ∃ step, (List.range keys.length).find? (fun step =>
      (window keys ((cursor+step*count)%keys.length) count).any ready) = some step := by
    rw [← Option.isSome_iff_exists, List.find?_isSome]
    exact ⟨d/count, List.mem_range.mpr hdiv, List.any_eq_true.mpr ⟨key, hlast, hready⟩⟩
  obtain ⟨hany, -, hfirst⟩ := List.find?_range_eq_some.mp hstep
  refine ⟨step, ?_, by rw [readyStart, hstep]; rfl, hany, fun hlaststep => hlaststep ▸ hlast⟩
  by_contra hlt
  have := hfirst (d/count) (by omega)
  rw [Bool.not_eq_true', List.any_eq_false] at this
  exact this key hlast hready

end Cycle

/-! ## The worker -/

structure WorkerClaims (K T : Type) where
  partitionKey : Option K
  partitionKeys : Option (List K)
  claimPartitionBatchSize : ℕ
  partitionCursor : ℕ
  claimCooldownUntil : Dict K T

/-- The worker owns these keys and its cursor is on one of them. -/
structure Owns {K T : Type} (keys : List K) (count : ℕ) (w : WorkerClaims K T) : Prop where
  alone : w.partitionKey = none
  owned : w.partitionKeys = some keys
  count : min w.claimPartitionBatchSize keys.length = count
  batch : 0 < w.claimPartitionBatchSize
  cursor : w.partitionCursor < keys.length

/-- `_owned_partition_scan_pages`. -/
def ownedPartitionScanPages {K T : Type} (w : WorkerClaims K T) : ℕ :=
  match w.partitionKeys.getD [] with
  | [] => 1
  | keys => max 1 ((keys.length+w.claimPartitionBatchSize-1)/w.claimPartitionBatchSize)

section Owned

variable {K T : Type} {keys : List K} {count : ℕ} {w : WorkerClaims K T} (hw : Owns keys count w)

include hw

theorem Owns.count_pos : 0 < count := by
  have := hw.count
  have := hw.batch
  have := hw.cursor
  omega

theorem Owns.count_le : count ≤ keys.length := by
  have := hw.count
  omega

/-- The pages are as many windows as it takes to go around. -/
theorem ownedPartitionScanPages_eq : ownedPartitionScanPages w = keys.length ⌈/⌉ count := by
  obtain ⟨key, rest, rfl⟩ := List.exists_cons_of_length_pos ((Nat.zero_le _).trans_lt hw.cursor)
  have hbatch := hw.batch
  have hpages : ownedPartitionScanPages w =
      max 1 (((key::rest).length+w.claimPartitionBatchSize-1)/w.claimPartitionBatchSize) := by
    rw [ownedPartitionScanPages, hw.owned]
    rfl
  rw [hpages, Nat.ceilDiv_eq_add_pred_div, ← hw.count]
  by_cases h : w.claimPartitionBatchSize ≤ (key::rest).length
  · rw [min_eq_left h]
    exact max_eq_right (Nat.div_pos (by omega) hbatch)
  · have hpos : 0 < (key::rest).length := by simp
    rw [min_eq_right (by omega), Nat.div_eq_of_lt_le (k := 1) (by omega) (by omega),
      Nat.div_eq_of_lt_le (k := 1) (by omega) (by omega)]
    rfl

end Owned

section Calls

variable {K T : Type} [DecidableEq K] [LE T] [DecidableLE T] [Zero T]

/-- `self._claim_cooldown_until.get(key, 0.0) <= now`. -/
def WorkerClaims.offCooldown (w : WorkerClaims K T) (now : T) (key : K) : Bool :=
  (Dict.get? w.claimCooldownUntil key).getD 0 ≤ now

/-- `_next_claim_partition`. -/
def nextClaimPartition (now : T) (w : WorkerClaims K T) :
    (Option K × Option (List K)) × WorkerClaims K T :=
  match w.partitionKey, w.partitionKeys.getD [] with
  | some key, _ => ((some key, none), w)
  | none, [] => ((none, none), w)
  | none, key::rest =>
    let owned := key::rest
    let count := min w.claimPartitionBatchSize owned.length
    let start := (readyStart (w.offCooldown now) owned w.partitionCursor count).getD
      w.partitionCursor
    let keys := window owned start count
    let w := { w with partitionCursor := (start+count)%owned.length }
    match keys with
    | [key] => ((some key, none), w)
    | keys => ((none, some keys), w)

def selectedKeys : Option K × Option (List K) → List K
  | (some key, _) => [key]
  | (none, keys) => keys.getD []

/-- What a call selects, and where it leaves the cursor. -/
theorem nextClaimPartition_eq {keys : List K} {count : ℕ} {w : WorkerClaims K T}
    (hw : Owns keys count w) (now : T) {start : ℕ}
    (hstart : (readyStart (w.offCooldown now) keys w.partitionCursor count).getD
      w.partitionCursor = start) :
    selectedKeys (nextClaimPartition now w).1 = window keys start count ∧
      (nextClaimPartition now w).2 =
        { w with partitionCursor := (start+count)%keys.length } := by
  obtain ⟨key, rest, rfl⟩ := List.exists_cons_of_length_pos ((Nat.zero_le _).trans_lt hw.cursor)
  unfold nextClaimPartition
  rw [hw.alone, hw.owned]
  simp only [Option.getD_some, hw.count, hstart]
  split
  · rename_i heq
    exact ⟨heq.symm, rfl⟩
  · exact ⟨rfl, rfl⟩

/-- A call of `_next_claim_partition`: which keys are off cooldown, which are selected, and
where the cursor is left. -/
structure Claim (K : Type) where
  ready : K → Bool
  selected : List K
  cursor : ℕ

def claim (w : WorkerClaims K T) (now : T) : Claim K where
  ready := w.offCooldown now
  selected := selectedKeys (nextClaimPartition now w).1
  cursor := (nextClaimPartition now w).2.partitionCursor

theorem claim_selected_ready {keys : List K} {count : ℕ} {w : WorkerClaims K T}
    (hw : Owns keys count w) (now : T) {key : K} (hkey : key ∈ keys)
    (hready : (claim w now).ready key = true) :
    ∃ key ∈ (claim w now).selected, (claim w now).ready key = true := by
  obtain ⟨i, hi, hget⟩ := List.mem_iff_getElem.mp hkey
  obtain ⟨d, hd⟩ := exists_ahead hw.cursor hi
  obtain ⟨step, -, hstart, hany, -⟩ := readyStart_ahead hw.count_pos hd
    (List.getElem?_eq_some_iff.mpr ⟨hi, hget⟩) hready
  have heq := (nextClaimPartition_eq hw now (by rw [show readyStart (w.offCooldown now) keys
    w.partitionCursor count = _ from hstart, Option.getD_some])).1
  rw [claim, heq]
  exact List.any_eq_true.mp hany

end Calls

section Runs

variable {K T : Type} [DecidableEq K] [LE T] [DecidableLE T] [Zero T] [Add T]

/-- `_cool_claim_keys`. -/
def coolClaimKeys (partitionKey : Option K) (partitionKeys : Option (List K)) (cooldown now : T)
    (w : WorkerClaims K T) : WorkerClaims K T :=
  if cooldown ≤ 0 then w
  else
    let keys := match partitionKey with
      | some key => [key]
      | none => partitionKeys.getD []
    { w with claimCooldownUntil :=
        keys.foldl (fun ends key => Dict.set ends key (now+cooldown)) w.claimCooldownUntil }

inductive Event (K T : Type) where
  | claim (now : T)
  | cool (partitionKey : Option K) (partitionKeys : Option (List K)) (cooldown now : T)

def step (w : WorkerClaims K T) : Event K T → WorkerClaims K T
  | .claim now => (nextClaimPartition now w).2
  | .cool partitionKey partitionKeys cooldown now =>
    coolClaimKeys partitionKey partitionKeys cooldown now w

/-- The calls of `_next_claim_partition` in a run. -/
def claims (w : WorkerClaims K T) : List (Event K T) → List (Claim K)
  | [] => []
  | .claim now::events => claim w now::claims (step w (.claim now)) events
  | .cool partitionKey partitionKeys cooldown now::events =>
    claims (step w (.cool partitionKey partitionKeys cooldown now)) events

variable {keys : List K} {count : ℕ} {w : WorkerClaims K T}

theorem Owns.step (hw : Owns keys count w) (event : Event K T) :
    Owns keys count (step w event) := by
  cases event with
  | claim now =>
    rw [ClaimScheduling.step, (nextClaimPartition_eq hw now rfl).2]
    exact ⟨hw.alone, hw.owned, hw.count, hw.batch,
      Nat.mod_lt _ ((Nat.zero_le _).trans_lt hw.cursor)⟩
  | cool partitionKey partitionKeys cooldown now =>
    unfold ClaimScheduling.step coolClaimKeys
    dsimp only
    split_ifs
    · exact hw
    · exact ⟨hw.alone, hw.owned, hw.count, hw.batch, hw.cursor⟩

/-- The part of a run behind some claims is the run of a later state. -/
theorem claims_drop (hw : Owns keys count w) (events : List (Event K T)) (j : ℕ) :
    ∃ (later : WorkerClaims K T) (rest : List (Event K T)), Owns keys count later ∧
      (claims w events).drop j = claims later rest := by
  induction events generalizing w j with
  | nil => exact ⟨w, [], hw, by simp [claims]⟩
  | cons event events ih =>
    cases event with
    | claim now =>
      cases j with
      | zero => exact ⟨w, _, hw, rfl⟩
      | succ j => exact ih (hw.step _) j
    | cool partitionKey partitionKeys cooldown now => exact ih (hw.step _) j

/-- What holds of one call holds of every call in a run. -/
theorem claims_forall {P : Claim K → Prop}
    (h : ∀ (w : WorkerClaims K T) (now : T), Owns keys count w → P (claim w now))
    (hw : Owns keys count w) (events : List (Event K T)) : ∀ c ∈ claims w events, P c := by
  induction events generalizing w with
  | nil => exact fun c hc => absurd hc List.not_mem_nil
  | cons event events ih =>
    cases event with
    | claim now => exact List.forall_mem_cons.mpr ⟨h w now hw, ih (hw.step (.claim now))⟩
    | cool partitionKey partitionKeys cooldown now => exact ih (hw.step _)

/-- A claim takes a ready key, or comes a window closer to it. -/
theorem claim_ahead (hw : Owns keys count w) (now : T) {i d : ℕ} {key : K}
    (hd : Ahead keys.length w.partitionCursor i d) (hkey : keys[i]? = some key)
    (hready : (claim w now).ready key = true) :
    key ∈ (claim w now).selected ∨
      ∃ e, e+count ≤ d ∧ Ahead keys.length (step w (.claim now)).partitionCursor i e := by
  obtain ⟨turn, hturn, hstart, -, hlast⟩ := readyStart_ahead hw.count_pos hd hkey hready
  obtain ⟨hselected, hnext⟩ := nextClaimPartition_eq hw now (by rw [show readyStart
    (w.offCooldown now) keys w.partitionCursor count = _ from hstart, Option.getD_some])
  by_cases heq : turn = d/count
  · left
    rw [claim, hselected]
    exact hlast heq
  · right
    have hle : (turn+1)*count ≤ d :=
      (Nat.mul_le_mul_right count (by omega)).trans (Nat.div_mul_le_self d count)
    refine ⟨d-(turn+1)*count, by rw [Nat.add_mul] at hle ⊢; omega, ?_⟩
    rw [ClaimScheduling.step, hnext]
    show Ahead _ (((w.partitionCursor+turn*count)%keys.length+count)%keys.length) _ _
    rw [Nat.mod_add_mod, Nat.add_assoc, ← Nat.succ_mul]
    exact hd.advance hle

/-- A key that stays ready is taken before the windows between the cursor and it are used up. -/
theorem claims_take (hw : Owns keys count w) {i d : ℕ} {key : K}
    (hd : Ahead keys.length w.partitionCursor i d) (hkey : keys[i]? = some key)
    (events : List (Event K T)) {turns : ℕ} (hturns : turns ≤ (claims w events).length)
    (hreach : d < turns*count)
    (hready : ∀ c ∈ (claims w events).take turns, c.ready key = true) :
    ∃ c ∈ (claims w events).take turns, key ∈ c.selected := by
  induction events generalizing w d turns with
  | nil =>
    obtain rfl : turns = 0 := Nat.le_zero.mp hturns
    omega
  | cons event events ih =>
    cases event with
    | cool partitionKey partitionKeys cooldown now =>
      refine ih (hw.step _) ?_ hturns hreach hready
      unfold ClaimScheduling.step coolClaimKeys
      dsimp only
      split_ifs <;> exact hd
    | claim now =>
      cases turns with
      | zero => omega
      | succ turns =>
        simp only [claims, List.take_succ_cons, List.length_cons, List.forall_mem_cons] at *
        obtain htaken | ⟨e, he, hahead⟩ := claim_ahead hw now hd hkey hready.1
        · exact ⟨_, List.mem_cons_self, htaken⟩
        · obtain ⟨c, hc, hmem⟩ := ih (hw.step _) hahead (by omega)
            (by rw [Nat.add_mul] at hreach; omega) hready.2
          exact ⟨c, List.mem_cons_of_mem _ hc, hmem⟩

/-- What one call selects, and where it leaves the cursor. -/
structure Claim.Fair (keys : List K) (count : ℕ) (c : Claim K) : Prop where
  length : c.selected.length = count
  nodup : c.selected.Nodup
  subset : c.selected ⊆ keys
  cursor : c.cursor < keys.length
  ready : (∃ key ∈ keys, c.ready key = true) → ∃ key ∈ c.selected, c.ready key = true

omit [Add T] in
theorem claim_fair (hkeys : keys.Nodup) (hw : Owns keys count w) (now : T) :
    (claim w now).Fair keys count := by
  obtain ⟨hselected, hnext⟩ := nextClaimPartition_eq hw now rfl
  refine ⟨?_, ?_, ?_, ?_, fun ⟨key, hkey, hready⟩ => claim_selected_ready hw now hkey hready⟩
  · rw [claim, hselected, window_length hw.count_le]
  · rw [claim, hselected]
    exact window_nodup hkeys hw.count_le
  · rw [claim, hselected]
    exact window_subset _ _ _
  · rw [claim, hnext]
    exact Nat.mod_lt _ ((Nat.zero_le _).trans_lt hw.cursor)

theorem claims_round (hw : Owns keys count w) (events : List (Event K T)) {key : K}
    (hkey : key ∈ keys) (hround : keys.length ⌈/⌉ count ≤ (claims w events).length)
    (hready : ∀ c ∈ (claims w events).take (keys.length ⌈/⌉ count), c.ready key = true) :
    ∃ c ∈ (claims w events).take (keys.length ⌈/⌉ count), key ∈ c.selected := by
  obtain ⟨i, hi, hget⟩ := List.mem_iff_getElem.mp hkey
  obtain ⟨d, hd⟩ := exists_ahead hw.cursor hi
  refine claims_take hw hd (List.getElem?_eq_some_iff.mpr ⟨hi, hget⟩) events hround ?_ hready
  have : keys.length ≤ count*(keys.length ⌈/⌉ count) := le_smul_ceilDiv hw.count_pos
  rw [Nat.mul_comm]
  exact hd.1.trans_le this

end Runs

/-- In every run of claims and cooldowns over distinct keys, a claim selects a full window of
distinct keys, with a key off cooldown whenever there is one, and leaves the cursor on a key.
A key that stays off cooldown is selected in every round of as many claims as there are pages,
so the pages cover all keys when none cools down. -/
theorem claim_partitions_never_starve {K T : Type} [DecidableEq K] [LE T] [DecidableLE T] [Zero T]
    [Add T] (keys : List K) (hkeys : keys.Nodup) (count : ℕ) (w : WorkerClaims K T)
    (hw : Owns keys count w) (events : List (Event K T)) :
    (∀ c ∈ claims w events, c.Fair keys count) ∧
    ownedPartitionScanPages w = keys.length ⌈/⌉ count ∧
    ∀ j, j+ownedPartitionScanPages w ≤ (claims w events).length →
      ∀ key ∈ keys,
        (∀ c ∈ ((claims w events).drop j).take (ownedPartitionScanPages w), c.ready key = true) →
        ∃ c ∈ ((claims w events).drop j).take (ownedPartitionScanPages w), key ∈ c.selected := by
  refine ⟨claims_forall (fun w now hw => claim_fair hkeys hw now) hw events,
    ownedPartitionScanPages_eq hw, fun j hj key hkey hready => ?_⟩
  rw [ownedPartitionScanPages_eq hw] at *
  obtain ⟨later, rest, hlater, hdrop⟩ := claims_drop hw events j
  rw [hdrop] at hready ⊢
  refine claims_round hlater rest hkey ?_ hready
  rw [← hdrop, List.length_drop]
  omega

/-- Three keys in windows of two. -/
def threeKeys : WorkerClaims Bytes ℕ where
  partitionKey := none
  partitionKeys := some [[97], [98], [99]]
  claimPartitionBatchSize := 2
  partitionCursor := 0
  claimCooldownUntil := []

def twoClaims : List (Event Bytes ℕ) :=
  [.claim 5, .cool none (some [[97], [98]]) 3 5, .claim 6]

theorem claim_partitions_never_starve_three :
    ∃ c ∈ ((claims threeKeys twoClaims).drop 0).take (ownedPartitionScanPages threeKeys),
      [99] ∈ c.selected :=
  (claim_partitions_never_starve [[97], [98], [99]] (by decide) 2 threeKeys
    ⟨rfl, rfl, rfl, by decide, by decide⟩ twoClaims).2.2 0 (by decide) [99] (by decide) (by decide)

end FerricStore.ClaimScheduling
