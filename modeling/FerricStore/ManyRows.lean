import FerricStore.ManyGroups
import FerricStore.ManyReading

/-!
# The rows of mutations of many flows

Every item is written as a row. The rows of a call are of one width, no value of them
stops the analysis of the options, and a row that is cut where it was joined is read
as the item it means, unless its lease token is the placeholder.
-/

set_option autoImplicit false

namespace FerricStore.ManyArguments
open Text BasicCommands FlowOptions FlowCommands FlowManyPayloads MutationArguments

section Rows

def claimedRow (batch : Option PartitionKey) (item : ClaimedFlow) : List Value :=
  if batch = none then
    [.str item.id, (item.partitionKey.map PartitionKey.value).getD .none,
      .bytes item.leaseToken, .int item.fencingToken]
  else [.str item.id, .bytes item.leaseToken, .int item.fencingToken]

/-- The row of every item, with the item it means. -/
def rows (c : ManyCall) (kind : ManyKind) : List (List Value × ManyItem) :=
  let batch := batchKey c kind
  match kind with
  | .transition =>
    c.fenced.map fun i => (fencedItemArgs batch.isNone true i, meantFenced batch true i)
  | .cancel =>
    c.fenced.map fun i => (fencedItemArgs batch.isNone false i, meantFenced batch false i)
  | _ => c.claimed.map fun i => (claimedRow batch i, meantClaimed batch i)

theorem rows_meant (c : ManyCall) (kind : ManyKind) :
    (rows c kind).map Prod.snd = meantItems c kind := by
  cases kind <;> simp [rows, meantItems, batchKey]

def rowWidth (kind : ManyKind) (mixed : Bool) : ℕ :=
  if kind = .cancel then (if mixed then 3 else 2) else (if mixed then 4 else 3)

theorem rows_width (c : ManyCall) (kind : ManyKind) :
    ∀ r ∈ rows c kind, r.1.length = rowWidth kind (batchKey c kind).isNone := by
  intro r hr
  cases kind <;>
    simp only [rows, List.mem_map] at hr <;>
    obtain ⟨i, -, rfl⟩ := hr <;>
    cases batchKey c _ <;>
    simp [rowWidth, claimedRow, fencedItemArgs]

/-- No value of a row stops the analysis. -/
theorem rows_plain {rt : Runtime} (hrt : TextNumbers rt) (c : ManyCall) (kind : ManyKind) :
    ∀ v ∈ (rows c kind).flatMap Prod.fst, ∃ n, nonNegativeInt rt v = .ok n := by
  have hkey (k : Option PartitionKey) :
      ∃ n, nonNegativeInt rt ((k.map PartitionKey.value).getD .none) = .ok n := by
    match k with
    | none => exact ⟨none, rfl⟩
    | some (.text s) => exact nonNegativeInt_text hrt (.inl rfl)
    | some (.bytes b) => exact nonNegativeInt_text hrt (.inr ⟨b, rfl⟩)
  have hlease (b : Option Bytes) :
      ∃ n, nonNegativeInt rt ((b.map Value.bytes).getD .none) = .ok n := by
    cases b with
    | none => exact ⟨none, rfl⟩
    | some b => exact nonNegativeInt_text hrt (.inr ⟨b, rfl⟩)
  have hid (s : Str) : ∃ n, nonNegativeInt rt (.str s) = .ok n :=
    nonNegativeInt_text hrt (.inl rfl)
  have hbytes (b : Bytes) : ∃ n, nonNegativeInt rt (.bytes b) = .ok n :=
    nonNegativeInt_text hrt (.inr ⟨b, rfl⟩)
  have hclaimed (batch : Option PartitionKey) (i : ClaimedFlow) :
      ∀ v ∈ claimedRow batch i, ∃ n, nonNegativeInt rt v = .ok n := by
    unfold claimedRow
    split <;>
      simp only [List.forall_mem_cons, List.not_mem_nil, false_implies, implies_true, and_true,
        hid, hkey, hbytes, nonNegativeInt_int]
  have hfenced (mixed lease : Bool) (i : FencedItem) :
      ∀ v ∈ fencedItemArgs mixed lease i, ∃ n, nonNegativeInt rt v = .ok n := by
    unfold fencedItemArgs
    cases mixed <;> cases lease <;>
      simp only [List.forall_mem_append, List.forall_mem_cons, List.not_mem_nil, false_implies,
        implies_true, and_true, hid, hkey, hlease, nonNegativeInt_int, if_true,
        if_neg (by decide : ¬ false = true)]
  intro v hv
  obtain ⟨r, hr, hv⟩ := List.mem_flatMap.mp hv
  cases kind <;>
    simp only [rows, List.mem_map] at hr <;>
    obtain ⟨i, -, rfl⟩ := hr
  all_goals first
    | exact hclaimed _ _ v hv
    | exact hfenced _ _ _ v hv

end Rows

section Accepted

theorem mapM_ok_map {α β : Type} {f : α → Except Err β} {g : α → β} {xs : List α}
    {ys : List β} (h : xs.mapM f = .ok ys) (hg : ∀ x y, f x = .ok y → y = g x) :
    ys = xs.map g ∧ ∀ x ∈ xs, f x = .ok (g x) := by
  induction xs generalizing ys with
  | nil =>
    cases h
    exact ⟨rfl, by simp⟩
  | cons x xs ih =>
    rw [List.mapM_cons] at h
    obtain ⟨y, hy, h⟩ := except_bind_eq_ok h
    obtain ⟨zs, hz, h⟩ := except_bind_eq_ok h
    cases h
    obtain ⟨rfl, hall⟩ := ih hz
    have hx := hg x y hy
    subst hx
    exact ⟨rfl, by simpa using ⟨hy, hall⟩⟩

theorem claimedItemArgs_ok {batch : Option PartitionKey} {item : ClaimedFlow}
    {row : List Value} (h : claimedItemArgs batch item = .ok row) :
    row = claimedRow batch item := by
  obtain ⟨-, -, h⟩ := except_bind_eq_ok h
  unfold claimedRow
  split at h
  · cases h
  · next hkey _ =>
    cases h
    simp [hkey]
  · cases h
    simp
  · split at h
    · cases h
    · cases h
      simp

theorem claimedItemArgs_key {item : ClaimedFlow} {row : List Value}
    (h : claimedItemArgs none item = .ok row) : ∃ k, item.partitionKey = some k := by
  obtain ⟨-, -, h⟩ := except_bind_eq_ok h
  cases hk : item.partitionKey with
  | none =>
    rw [hk] at h
    cases h
  | some k => exact ⟨k, rfl⟩

/-- What appending claimed items leaves, and what it has checked. -/
theorem appendClaimed_ok {batch : Option PartitionKey} {items : List ClaimedFlow}
    {args : List Value} (h : appendClaimedItemsArgs batch items = .ok args) :
    args = word "ITEMS"::items.flatMap (claimedRow batch) ∧
      (batch = none → ∀ i ∈ items, ∃ k, i.partitionKey = some k) := by
  obtain ⟨ys, hys, h⟩ := except_bind_eq_ok h
  cases h
  obtain ⟨rfl, hall⟩ := mapM_ok_map hys fun _ _ => claimedItemArgs_ok
  refine ⟨by rw [List.flatMap_def], ?_⟩
  rintro rfl i hi
  exact claimedItemArgs_key (hall i hi)

/-- What appending fenced items leaves, and what it has checked. -/
theorem appendFenced_ok {batch : Option PartitionKey} {items : List FencedItem}
    {lease : Bool} {args : List Value} (h : appendFencedItemsArgs batch items lease = .ok args) :
    args = word "ITEMS"::items.flatMap (fencedItemArgs batch.isNone lease) ∧
      (batch = none → ∀ i ∈ items, ∃ k, i.partitionKey = some k) ∧
      (lease = true → ∀ i ∈ items, ∃ b, i.leaseToken = some b) := by
  obtain ⟨ys, hys, h⟩ := except_bind_eq_ok h
  cases h
  obtain ⟨-, hall⟩ := mapM_ok_map (g := fun _ => ()) hys fun _ _ _ => rfl
  have hvalid (i : FencedItem) (hi : i ∈ items) :
      ¬ (batch = none ∧ i.partitionKey = none) ∧ ¬ (lease = true ∧ i.leaseToken.getD [] = []) := by
    have hv := hall i hi
    unfold validateFencedItem at hv
    split_ifs at hv with h1 h2 h3 h4
    exact ⟨h3, h2⟩
  refine ⟨rfl, ?_, ?_⟩
  · intro hb i hi
    exact Option.ne_none_iff_exists'.mp fun hn => (hvalid i hi).1 ⟨hb, hn⟩
  · intro hl i hi
    exact Option.ne_none_iff_exists'.mp fun hn => (hvalid i hi).2 ⟨hl, by rw [hn]; rfl⟩

/-- What a builder appends after its options. -/
def itemArgs (c : ManyCall) (kind : ManyKind) : Except Err (List Value) :=
  match kind with
  | .transition => appendFencedItemsArgs (batchKey c kind) c.fenced true
  | .cancel => appendFencedItemsArgs (batchKey c kind) c.fenced false
  | _ => appendClaimedItemsArgs (batchKey c kind) c.claimed

theorem itemArgs_rows {c : ManyCall} {kind : ManyKind} {args : List Value}
    (h : itemArgs c kind = .ok args) :
    args = word "ITEMS"::(rows c kind).flatMap Prod.fst := by
  cases kind <;> simp only [rows, List.flatMap_map]
  case transition => exact (appendFenced_ok h).1
  case cancel => exact (appendFenced_ok h).1
  all_goals exact (appendClaimed_ok h).1

/-- The arguments as the reader of the command takes them. -/
def readArgs : ManyKind → List Value → List Value
  | .transition, args => args.take 1++args.drop 3
  | _, args => args

/-- A builder writes the partition, its options and its items. -/
theorem manyArgs_ok {codec : Codec} {clock : ℤ} {c : ManyCall} {kind : ManyKind}
    {args : List Value} (h : manyArgs codec clock c kind = .ok args) :
    ∃ items, itemArgs c kind = .ok items ∧ readArgs kind args.tail =
      wirePartition (batchKey c kind)::(written (manyGroups codec clock c kind)++items) := by
  cases kind with
  | complete =>
    obtain ⟨items, hi, h⟩ := except_bind_eq_ok h
    cases h
    refine ⟨items, hi, ?_⟩
    simp only [manyGroups, written_append, (written_given ..).1, (written_encoded ..).1,
      written_bool, written_attributes, written_meta, written_success, written_values, intGroup]
    rfl
  | completeJobs =>
    simp only [manyArgs, completeJobsCommandArgs] at h
    split at h
    · cases h
    · obtain ⟨items, hi, h⟩ := except_bind_eq_ok h
      cases h
      refine ⟨items, hi, ?_⟩
      simp only [manyGroups, written_append, (written_given ..).1, (written_encoded ..).1,
        written_bool, intGroup]
      rfl
  | retry =>
    obtain ⟨items, hi, h⟩ := except_bind_eq_ok h
    cases h
    refine ⟨items, hi, ?_⟩
    simp only [manyGroups, written_append, (written_given ..).1, (written_encoded ..).1,
      written_bool, (written_named ..).1, intGroup]
    rfl
  | fail =>
    obtain ⟨items, hi, h⟩ := except_bind_eq_ok h
    cases h
    refine ⟨items, hi, ?_⟩
    simp only [manyGroups, written_append, (written_given ..).1, (written_encoded ..).1,
      written_bool, (written_named ..).1, intGroup]
    rfl
  | transition =>
    obtain ⟨priority, hp, h⟩ := except_bind_eq_ok h
    obtain ⟨items, hi, h⟩ := except_bind_eq_ok h
    cases h
    refine ⟨items, hi, ?_⟩
    rw [appendPriority_ok hp]
    simp only [manyGroups, written_append, (written_given ..).1, (written_encoded ..).1,
      written_bool, (written_named ..).1, intGroup]
    rfl
  | cancel =>
    obtain ⟨items, hi, h⟩ := except_bind_eq_ok h
    cases h
    refine ⟨items, hi, ?_⟩
    simp only [manyGroups, written_append, (written_given ..).1, (written_encoded ..).1,
      written_bool, written_meta, written_values, intGroup]
    rfl

end Accepted

section Items

/-- The placeholder for a field that an item leaves out. -/
def placeholder : Bytes := utf8 (lit "-")

theorem claimed_read (batch : Option PartitionKey) (i : ClaimedFlow)
    (hk : batch = none → ∃ k, i.partitionKey = some k) :
    itemOf (batch.map PartitionKey.value) (.list (claimedRow batch i)) =
      some (meantClaimed batch i) := by
  cases batch with
  | none =>
    obtain ⟨k, hk⟩ := hk rfl
    simp [claimedRow, itemOf, meantClaimed, meantPartition, hk]
  | some k => simp [claimedRow, itemOf, meantClaimed, meantPartition]

theorem optionalEntry_bytes (name : String) (b : Bytes) :
    optionalEntry name (.bytes b) =
      if b = placeholder then [] else [entry name (.bytes b)] := by
  by_cases h : b = placeholder
  · simp [optionalEntry, dash, h, placeholder]
  · simp [optionalEntry, dash, if_neg h, show ¬ b = utf8 (lit "-") from h]

theorem fenced_read (batch : Option PartitionKey) (lease : Bool) (i : FencedItem)
    (hk : batch = none → ∃ k, i.partitionKey = some k)
    (hl : lease = true → ∃ b, i.leaseToken = some b) :
    itemOf (batch.map PartitionKey.value)
        (fencedItem batch.isNone lease (fencedItemArgs batch.isNone lease i)) =
      some (meantFenced batch lease i) ↔
    (lease = true → i.leaseToken ≠ some placeholder) := by
  have hpartition : meantPartition batch i.partitionKey =
      (if batch.isNone then some ((i.partitionKey.map PartitionKey.value).getD .none)
        else batch.map PartitionKey.value) := by
    cases batch with
    | none =>
      obtain ⟨k, hk⟩ := hk rfl
      simp [meantPartition, hk]
    | some k => rfl
  rw [meantFenced, hpartition]
  cases lease with
  | false =>
    cases batch <;>
      simp [fencedItemArgs, fencedItem, itemOf, entry, Dict.get?, lit_inj]
  | true =>
    obtain ⟨b, hb⟩ := hl rfl
    by_cases hd : b = placeholder
    · cases batch <;>
        simp [fencedItemArgs, fencedItem, itemOf, entry, Dict.get?, lit_inj, hb,
          optionalEntry_bytes, hd]
    · cases batch <;>
        simp [fencedItemArgs, fencedItem, itemOf, entry, Dict.get?, lit_inj, hb,
          optionalEntry_bytes, hd]

def rowItem (kind : ManyKind) (mixed : Bool) : List Value → Value :=
  match kind with
  | .transition => fencedItem mixed true
  | .cancel => fencedItem mixed false
  | _ => .list

/-- No lease token of the call is the placeholder. -/
def KeepsLeases (c : ManyCall) (kind : ManyKind) : Prop :=
  kind = .transition → ∀ i ∈ c.fenced, i.leaseToken ≠ some placeholder

/-- Rows cut where they were joined are read as the items they mean. -/
theorem rows_read {c : ManyCall} {kind : ManyKind} {args : List Value}
    (h : itemArgs c kind = .ok args) :
    (∀ r ∈ rows c kind, itemOf ((batchKey c kind).map PartitionKey.value)
        (rowItem kind (batchKey c kind).isNone r.1) = some r.2) ↔ KeepsLeases c kind := by
  cases kind <;> simp only [rows, List.forall_mem_map, KeepsLeases, rowItem, reduceCtorEq,
    false_implies, iff_true, forall_const]
  case transition =>
    obtain ⟨-, hk, hl⟩ := appendFenced_ok h
    refine forall₂_congr fun i hi => ?_
    rw [fenced_read _ true i (fun hb => hk hb i hi) (fun hb => hl hb i hi)]
    simp
  case cancel =>
    obtain ⟨-, hk, hl⟩ := appendFenced_ok h
    intro i hi
    exact (fenced_read _ false i (fun hb => hk hb i hi) (fun hb => hl hb i hi)).mpr (by simp)
  all_goals
    obtain ⟨-, hk⟩ := appendClaimed_ok h
    exact fun i hi => claimed_read _ i fun hb => hk hb i hi

end Items

end FerricStore.ManyArguments
