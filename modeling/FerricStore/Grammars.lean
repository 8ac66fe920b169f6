import FerricStore.BigEndian
import FerricStore.Budgets
import FerricStore.Cursor

/-!
# Grammars and their parsers

A grammar relates a value to its bytes and to what they take from a budget. A parser stands
at an offset of a buffer; it `Reads` a grammar when it accepts there exactly the bytes of
the grammar that fit the budget. Sequences, loops and choices of such parsers read the
sequences, repetitions and choices of their grammars.
-/

set_option autoImplicit false

namespace FerricStore.Grammars
open Cursor Stateful Budgets

abbrev Grammar (α : Type) := α → Bytes → ℕ → Prop

def Parser (ε α : Type) := Bytes → ℕ → EStateM ε (Option ℕ) (α × ℕ)

section Parsers

variable {ε α β : Type}

instance : Monad (Parser ε) where
  pure a := fun _ offset => pure (a, offset)
  bind p f := fun data offset => do
    let (a, offset) ← p data offset
    f a data offset

def fail (e : ε) : Parser ε α := fun _ _ => throw e

def field (short : ε) (size : ℕ) : Parser ε Bytes := fun data offset =>
  if offset+size > data.length then throw short
  else pure (slice data offset size, offset+size)

def byte (short : ε) : Parser ε UInt8 := fun data offset =>
  match data[offset]? with
  | some b => pure (b, offset+1)
  | none => throw short

def natural (short : ε) (size : ℕ) : Parser ε ℕ := do
  let b ← field short size
  pure (BigEndian.decode b)

def integer (short : ε) (size : ℕ) : Parser ε ℤ := do
  let b ← field short size
  pure (BigEndian.decodeSigned b)

def charge (excess : ε) (count : ℕ) : Parser ε Unit := fun _ offset remaining =>
  match remaining with
  | none => .ok ((), offset) none
  | some r => if count > r then .error excess (some r) else .ok ((), offset) (some (r-count))

def times (p : Parser ε α) : ℕ → Parser ε (List α)
  | 0 => pure []
  | n+1 => do
    let a ← p
    let as ← times p n
    pure (a::as)

/-- Entries whose keys are new. -/
def distinct [DecidableEq α] (duplicate : ε) (key : Parser ε α) (value : Parser ε β) :
    ℕ → List (α × β) → Parser ε (List (α × β))
  | 0, seen => pure seen
  | n+1, seen => do
    let k ← key
    if k ∈ seen.map Prod.fst then fail duplicate
    else do
      let v ← value
      distinct duplicate key value n (seen++[(k, v)])

/-- A number of items, charged before they are read. -/
def listOf (short excess : ε) (p : Parser ε α) : Parser ε (List α) := do
  let count ← natural short 4
  charge excess count
  times p count

def mapOf [DecidableEq α] (short excess duplicate : ε) (key : Parser ε α) (value : Parser ε β) :
    Parser ε (List (α × β)) := do
  let count ← natural short 4
  charge excess count
  distinct duplicate key value count []

/-- So many items of a least size must be left. -/
def room (short : ε) (count size : ℕ) (p : Parser ε α) : Parser ε α := fun data offset =>
  if count > (data.length-offset)/size then throw short else p data offset

/-- A parser whose errors become errors of another kind. -/
def raising {ε' : Type} (g : ε → ε') (p : Parser ε α) : Parser ε' α := fun data offset b =>
  match p data offset b with
  | .ok a b' => .ok a b'
  | .error e b' => .error (g e) b'

/-- The rest of the buffer. -/
def whole (trailing : ε) (p : Parser ε α) (data : Bytes) (offset : ℕ) :
    EStateM ε (Option ℕ) α := do
  let (a, offset) ← p data offset
  if offset ≠ data.length then throw trailing else pure a

@[simp] theorem pure_apply (a : α) (data : Bytes) (offset : ℕ) :
    (pure a : Parser ε α) data offset = pure (a, offset) := rfl

@[simp] theorem bind_apply (p : Parser ε α) (f : α → Parser ε β) (data : Bytes) (offset : ℕ) :
    (p >>= f) data offset = p data offset >>= fun r => f r.1 data r.2 := rfl

@[simp] theorem fail_apply (e : ε) (data : Bytes) (offset : ℕ) :
    (fail e : Parser ε α) data offset = throw e := rfl

end Parsers

section Grammars

variable {α β : Type}

/-- One item after the other. -/
inductive Sequence (G : Grammar α) : List α → Bytes → ℕ → Prop where
  | nil : Sequence G [] [] 0
  | cons {a : α} {as : List α} {w ws : Bytes} {c cs : ℕ} : G a w c → Sequence G as ws cs →
    Sequence G (a::as) (w++ws) (c+cs)

/-- A value, and then a value that may depend on it. -/
def after (G : Grammar α) (H : α → Grammar β) : Grammar β := fun b w c =>
  ∃ a w₁ c₁ w₂ c₂, G a w₁ c₁ ∧ H a b w₂ c₂ ∧ w = w₁++w₂ ∧ c = c₁+c₂

def pair (G : Grammar α) (H : Grammar β) : Grammar (α × β) := fun e w c =>
  ∃ w₁ c₁ w₂ c₂, G e.1 w₁ c₁ ∧ H e.2 w₂ c₂ ∧ w = w₁++w₂ ∧ c = c₁+c₂

/-- The items of a grammar that the value gives, behind their 32-bit number. -/
def counted (G : Grammar α) : Grammar (List α) := fun as w c =>
  ∃ ws cs, as.length < 256^4 ∧ Sequence G as ws cs ∧
    w = BigEndian.encode 4 as.length++ws ∧ c = as.length+cs

/-- Entries with different keys. -/
def countedMap (G : Grammar (α × β)) : Grammar (List (α × β)) := fun es w c =>
  (es.map Prod.fst).Nodup ∧ counted G es w c

theorem Sequence.congr {G H : Grammar α} (h : ∀ a w c, G a w c ↔ H a w c) {as : List α} {w : Bytes}
    {c : ℕ} : Sequence G as w c ↔ Sequence H as w c := by
  have hone : ∀ {G H : Grammar α}, (∀ a w c, G a w c → H a w c) → Sequence G as w c →
      Sequence H as w c := by
    intro G H hGH hs
    induction hs with
    | nil => exact .nil
    | cons ha _ ih => exact .cons (hGH _ _ _ ha) ih
  exact ⟨hone fun a w c => (h a w c).mp, hone fun a w c => (h a w c).mpr⟩

/-- Items of a least size. -/
theorem Sequence.length_le {G : Grammar α} {size : ℕ} (h : ∀ a w c, G a w c → size ≤ w.length)
    {as : List α} {w : Bytes} {c : ℕ} (hs : Sequence G as w c) : as.length*size ≤ w.length := by
  induction hs with
  | nil => simp
  | @cons a as w ws c cs ha _ ih =>
    have := h a w c ha
    rw [List.length_cons, List.length_append, Nat.succ_mul]
    omega

theorem Sequence.length_eq {G : Grammar α} {size : ℕ} (h : ∀ a w c, G a w c → w.length = size)
    {as : List α} {w : Bytes} {c : ℕ} (hs : Sequence G as w c) : w.length = as.length*size := by
  induction hs with
  | nil => simp
  | @cons a as w ws c cs ha _ ih =>
    rw [List.length_cons, List.length_append, Nat.succ_mul, h a w c ha, ih, Nat.add_comm]

end Grammars

/-- A parser accepts exactly the bytes of a grammar that fit the budget. -/
structure Reads {ε α : Type} (p : Parser ε α) (G : Grammar α) : Prop where
  sound : ∀ {data : Bytes} {offset e : ℕ} {a : α} {b b' : Option ℕ}, offset ≤ data.length →
    p data offset b = .ok (a, e) b' → ∃ w rest c, Suffix data offset (w++rest) ∧
      e = offset+w.length ∧ G a w c ∧ Affords b c ∧ b' = spend b c
  complete : ∀ {data rest w : Bytes} {offset c : ℕ} {a : α} {b : Option ℕ},
    Suffix data offset (w++rest) → G a w c → Affords b c →
      p data offset b = .ok (a, offset+w.length) (spend b c)

namespace Reads

variable {ε α β : Type} {p : Parser ε α} {f : α → Parser ε β} {G : Grammar α}
  {H : α → Grammar β}

theorem congr {G' : Grammar α} (h : Reads p G) (hG : ∀ a w c, G a w c ↔ G' a w c) :
    Reads p G' where
  sound hoffset hp := by
    obtain ⟨w, rest, c, hs, hf, hg, hb⟩ := h.sound hoffset hp
    exact ⟨w, rest, c, hs, hf, (hG _ _ _).mp hg, hb⟩
  complete hs hg hb := h.complete hs ((hG _ _ _).mpr hg) hb

theorem bind (hp : Reads p G) (hf : ∀ a, Reads (f a) (H a)) : Reads (p >>= f) (after G H) where
  sound {data offset final b budget budget'} hoffset hrun := by
    obtain ⟨⟨a, middle⟩, s, ha, hrun⟩ := bind_eq_ok hrun
    obtain ⟨w₁, rest, c₁, hs, rfl, hg, hb, rfl⟩ := hp.sound hoffset ha
    obtain ⟨w₂, rest', c₂, hs', rfl, hh, hb', rfl⟩ := (hf a).sound hs.available hrun
    have hrest : rest = w₂++rest' := hs.advance.drop.symm.trans hs'.drop
    refine ⟨w₁++w₂, rest', c₁+c₂, ?_, by rw [List.length_append, Nat.add_assoc],
      ⟨a, w₁, c₁, w₂, c₂, hg, hh, rfl, rfl⟩, ?_, by rw [spend_spend]⟩
    · rwa [List.append_assoc, ← hrest]
    · intro n hn
      have h₁ := hb n hn
      have h₂ := hb' (n-c₁) (by rw [hn]; rfl)
      omega
  complete {data rest w offset c b budget} hs hg hb := by
    obtain ⟨a, w₁, c₁, w₂, c₂, hg, hh, rfl, rfl⟩ := hg
    rw [List.append_assoc] at hs
    have ha := hp.complete hs hg (hb.mono (Nat.le_add_right _ _))
    have hrest := (hf a).complete hs.advance hh hb.spend
    show (p data offset >>= fun r => f r.1 data r.2) budget = _
    rw [bind_of_ok ha, hrest, spend_spend, List.length_append, Nat.add_assoc]

theorem pure (a : α) : Reads (Pure.pure a : Parser ε α) fun b w c => b = a ∧ w = [] ∧ c = 0 where
  sound {data offset final b budget budget'} hoffset h := by
    obtain ⟨heq, rfl⟩ := pure_eq_ok h
    cases heq
    exact ⟨[], data.drop offset, 0, ⟨hoffset, rfl⟩, rfl, ⟨rfl, rfl, rfl⟩, fun _ _ => Nat.zero_le _,
      (spend_zero _).symm⟩
  complete := by
    rintro data rest w offset c b budget - ⟨rfl, rfl, rfl⟩ -
    rw [spend_zero]
    rfl

theorem fail (e : ε) : Reads (Grammars.fail e : Parser ε α) fun _ _ _ => False where
  sound _ h := nomatch h
  complete _ h := h.elim

theorem ite {q : Parser ε α} {G' : Grammar α} {c : Prop} [Decidable c] (hp : Reads p G)
    (hq : Reads q G') : Reads (if c then p else q) (if c then G else G') := by
  split_ifs
  · exact hp
  · exact hq

/-- The last step of a parser only gives its value another form. -/
theorem map {g : α → β} (hp : Reads p G) :
    Reads (p >>= fun a => Pure.pure (g a)) fun b w c => ∃ a, G a w c ∧ b = g a := by
  refine (hp.bind fun a => pure (g a)).congr fun b w c => ?_
  constructor
  · rintro ⟨a, w₁, c₁, w₂, c₂, hg, ⟨rfl, rfl, rfl⟩, rfl, rfl⟩
    exact ⟨a, by simpa using hg, rfl⟩
  · rintro ⟨a, hg, rfl⟩
    exact ⟨a, w, c, [], 0, hg, ⟨rfl, rfl, rfl⟩, by simp, rfl⟩

theorem field (short : ε) (size : ℕ) : Reads (Grammars.field short size) fun x w c =>
    x.length = size ∧ w = x ∧ c = 0 where
  sound {data offset final x budget budget'} _ h := by
    unfold Grammars.field at h
    split_ifs at h with hsize
    · cases h
    · obtain ⟨heq, rfl⟩ := pure_eq_ok h
      cases heq
      obtain ⟨hlength, hs⟩ := Suffix.of_available (Nat.not_lt.mp hsize)
      exact ⟨_, _, 0, hs, by rw [hlength], ⟨hlength, rfl, rfl⟩, fun _ _ => Nat.zero_le _,
        (spend_zero _).symm⟩
  complete := by
    rintro data rest w offset c x budget hs ⟨rfl, rfl, rfl⟩ -
    have hsize := hs.available
    rw [Grammars.field, if_neg (by omega), hs.slice_eq, spend_zero]
    rfl

theorem byte (short : ε) : Reads (Grammars.byte short) fun x w c => w = [x] ∧ c = 0 where
  sound {data offset final x budget budget'} _ h := by
    unfold Grammars.byte at h
    cases hx : data[offset]? with
    | none =>
      rw [hx] at h
      cases h
    | some y =>
      rw [hx] at h
      obtain ⟨heq, rfl⟩ := pure_eq_ok h
      cases heq
      obtain ⟨hlt, rfl⟩ := List.getElem?_eq_some_iff.mp hx
      exact ⟨_, data.drop (offset+1), 0, ⟨hlt.le, List.drop_eq_getElem_cons hlt⟩, rfl, ⟨rfl, rfl⟩,
        fun _ _ => Nat.zero_le _, (spend_zero _).symm⟩
  complete := by
    rintro data rest w offset c x budget hs ⟨rfl, rfl⟩ -
    have hx : data[offset]? = some x := by
      have hdrop := congrArg (·[0]?) hs.drop
      simpa using hdrop
    rw [Grammars.byte, hx, spend_zero]
    rfl

/-- A byte that has to be there, and what stands behind it. -/
theorem marked {short other : ε} (marker : UInt8) (hp : Reads p G) : Reads (do
    let b ← Grammars.byte short
    if b ≠ marker then Grammars.fail other else p) fun a w c =>
      ∃ rest, w = marker::rest ∧ G a rest c := by
  refine ((byte short).bind fun b => ite (c := b ≠ marker) (fail other) hp).congr fun a w c => ?_
  constructor
  · rintro ⟨b, _, _, rest, _, ⟨rfl, rfl⟩, h, rfl, rfl⟩
    split_ifs at h with hb
    · exact h.elim
    · rw [not_not] at hb
      exact ⟨rest, by rw [hb]; rfl, by rwa [Nat.zero_add]⟩
  · rintro ⟨rest, rfl, hg⟩
    refine ⟨marker, [marker], 0, rest, c, ⟨rfl, rfl⟩, ?_, rfl, (Nat.zero_add c).symm⟩
    beta_reduce
    rwa [if_neg (not_not.mpr rfl)]

theorem natural (short : ε) (size : ℕ) : Reads (Grammars.natural short size) fun n w c =>
    n < 256^size ∧ w = BigEndian.encode size n ∧ c = 0 := by
  refine (field short size).map.congr fun n w c => ?_
  constructor
  · rintro ⟨x, ⟨rfl, rfl, rfl⟩, rfl⟩
    exact ⟨BigEndian.decode_lt w, (BigEndian.encode_decode w).symm, rfl⟩
  · rintro ⟨hn, rfl, rfl⟩
    exact ⟨_, ⟨BigEndian.encode_length size n, rfl, rfl⟩, (BigEndian.decode_encode size n hn).symm⟩

theorem integer (short : ε) (size : ℕ) : Reads (Grammars.integer short size) fun z w c =>
    -(256^size : ℤ) ≤ 2*z ∧ 2*z < 256^size ∧ w = BigEndian.encodeSigned size z ∧ c = 0 := by
  refine (field short size).map.congr fun z w c => ?_
  constructor
  · rintro ⟨x, ⟨rfl, rfl, rfl⟩, rfl⟩
    obtain ⟨hlow, hhigh⟩ := BigEndian.decodeSigned_range w
    exact ⟨hlow, hhigh, (BigEndian.encodeSigned_decodeSigned w).symm, rfl⟩
  · rintro ⟨hlow, hhigh, rfl, rfl⟩
    exact ⟨_, ⟨BigEndian.encodeSigned_length size z, rfl, rfl⟩,
      (BigEndian.decodeSigned_encodeSigned size z hlow hhigh).symm⟩

theorem charge (excess : ε) (count : ℕ) : Reads (Grammars.charge excess count) fun _ w c =>
    w = [] ∧ c = count where
  sound {data offset final u budget budget'} hoffset h := by
    refine ⟨[], data.drop offset, count, ⟨hoffset, rfl⟩, ?_⟩
    cases budget with
    | none =>
      cases h
      exact ⟨rfl, ⟨rfl, rfl⟩, fun _ h => (nomatch h), rfl⟩
    | some r =>
      unfold Grammars.charge at h
      dsimp only at h
      split_ifs at h with hr
      cases h
      refine ⟨rfl, ⟨rfl, rfl⟩, fun n hn => ?_, rfl⟩
      cases hn
      omega
  complete := by
    rintro data rest w offset c u budget - ⟨rfl, rfl⟩ hb
    cases budget with
    | none => rfl
    | some r =>
      have hr := hb r rfl
      unfold Grammars.charge
      dsimp only
      rw [if_neg (by omega)]
      rfl

theorem times (hp : Reads p G) (n : ℕ) :
    Reads (Grammars.times p n) fun as w c => as.length = n ∧ Sequence G as w c := by
  induction n with
  | zero =>
    refine (pure []).congr fun as w c => ?_
    constructor
    · rintro ⟨rfl, rfl, rfl⟩
      exact ⟨rfl, .nil⟩
    · rintro ⟨hlength, hs⟩
      obtain rfl := List.length_eq_zero_iff.mp hlength
      cases hs
      exact ⟨rfl, rfl, rfl⟩
  | succ n ih =>
    refine (hp.bind fun a => ih.map).congr fun as w c => ?_
    constructor
    · rintro ⟨a, w₁, c₁, w₂, c₂, hg, ⟨as, ⟨rfl, hs⟩, rfl⟩, rfl, rfl⟩
      exact ⟨rfl, .cons hg hs⟩
    · rintro ⟨hlength, hs⟩
      cases hs with
      | nil => cases hlength
      | cons hg hs =>
        exact ⟨_, _, _, _, _, hg, ⟨_, ⟨Nat.succ.inj hlength, hs⟩, rfl⟩, rfl, rfl⟩

/-- A number, its charge and a parser of so many items. -/
theorem charged {short excess : ε} {q : ℕ → Parser ε (List α)} {P : List α → Prop}
    (hq : ∀ n, Reads (q n) fun as w c => as.length = n ∧ P as ∧ Sequence G as w c) : Reads (do
      let count ← Grammars.natural short 4
      Grammars.charge excess count
      q count) fun as w c => P as ∧ counted G as w c := by
  refine ((natural short 4).bind fun n => (charge excess n).bind fun _ => hq n).congr
    fun as w c => ?_
  constructor
  · rintro ⟨n, _, _, _, _, ⟨hn, rfl, rfl⟩, ⟨_, _, _, ws, cs, ⟨rfl, rfl⟩, ⟨rfl, hP, hs⟩, rfl, rfl⟩,
      rfl, rfl⟩
    exact ⟨hP, _, cs, hn, hs, by simp, by omega⟩
  · rintro ⟨hP, ws, cs, hn, hs, rfl, rfl⟩
    exact ⟨as.length, _, 0, ws, as.length+cs, ⟨hn, rfl, rfl⟩,
      ⟨(), [], as.length, ws, cs, ⟨rfl, rfl⟩, ⟨rfl, hP, hs⟩, rfl, rfl⟩, rfl, by omega⟩

theorem listOf {short excess : ε} (hp : Reads p G) :
    Reads (Grammars.listOf short excess p) (counted G) := by
  have hitems : ∀ n, Reads (Grammars.times p n) fun as w c =>
      as.length = n ∧ True ∧ Sequence G as w c := fun n =>
    (hp.times n).congr fun as w c => by rw [true_and]
  exact (charged hitems).congr fun as w c => by rw [true_and]

theorem distinct [DecidableEq α] {duplicate : ε} {value : Parser ε β} {V : Grammar β}
    (hp : Reads p G) (hv : Reads value V) (n : ℕ) (seen : List (α × β)) :
    Reads (Grammars.distinct duplicate p value n seen) fun es w c =>
      ∃ new, es = seen++new ∧ new.length = n ∧ (new.map Prod.fst).Nodup ∧
        (∀ e ∈ new, e.1 ∉ seen.map Prod.fst) ∧ Sequence (pair G V) new w c := by
  induction n generalizing seen with
  | zero =>
    refine (pure seen).congr fun es w c => ?_
    constructor
    · rintro ⟨rfl, rfl, rfl⟩
      exact ⟨[], by simp, rfl, List.nodup_nil, by simp, .nil⟩
    · rintro ⟨new, rfl, hlength, -, -, hs⟩
      obtain rfl := List.length_eq_zero_iff.mp hlength
      cases hs
      exact ⟨by simp, rfl, rfl⟩
  | succ n ih =>
    refine (hp.bind fun k => (fail duplicate).ite (hv.bind fun v => ih (seen++[(k, v)]))).congr
      fun es w c => ?_
    constructor
    · rintro ⟨k, w₁, c₁, w₂, c₂, hk, h, rfl, rfl⟩
      split_ifs at h with hnew
      · exact h.elim
      · obtain ⟨v, w₃, c₃, w₄, c₄, hv, ⟨new, rfl, hlength, hnodup, hout, hs⟩, rfl, rfl⟩ := h
        refine ⟨(k, v)::new, by simp, by simp [hlength], ?_, ?_, ?_⟩
        · rw [List.map_cons, List.nodup_cons]
          refine ⟨fun hin => ?_, hnodup⟩
          obtain ⟨e, he, rfl⟩ := List.mem_map.mp hin
          exact hout e he (by simp)
        · rintro e he
          rcases List.mem_cons.mp he with rfl | he
          · exact hnew
          · exact fun hin => hout e he (by simp [List.mem_map.mp hin])
        · rw [← List.append_assoc, ← Nat.add_assoc]
          exact .cons ⟨w₁, c₁, w₃, c₃, hk, hv, rfl, rfl⟩ hs
    · rintro ⟨new, rfl, hlength, hnodup, hout, hs⟩
      cases hs with
      | nil => cases hlength
      | @cons e new w ws c cs he hs =>
        obtain ⟨w₁, c₁, w₂, c₂, hk, hv, rfl, rfl⟩ := he
        refine ⟨e.1, w₁, c₁, w₂++ws, c₂+cs, hk, ?_, by simp, by omega⟩
        beta_reduce
        rw [if_neg (hout e List.mem_cons_self)]
        rw [List.map_cons, List.nodup_cons] at hnodup
        refine ⟨e.2, w₂, c₂, ws, cs, hv, ⟨new, by simp, Nat.succ.inj hlength, hnodup.2, ?_, hs⟩,
          rfl, rfl⟩
        intro x hx hin
        rw [List.map_append, List.mem_append] at hin
        rcases hin with hin | hin
        · exact hout x (List.mem_cons_of_mem e hx) hin
        · rw [List.map_singleton, List.mem_singleton] at hin
          exact hnodup.1 (hin ▸ List.mem_map_of_mem hx)

theorem entries [DecidableEq α] {duplicate : ε} {value : Parser ε β} {V : Grammar β}
    (hp : Reads p G) (hv : Reads value V) (n : ℕ) :
    Reads (Grammars.distinct duplicate p value n []) fun es w c =>
      es.length = n ∧ (es.map Prod.fst).Nodup ∧ Sequence (pair G V) es w c := by
  refine (hp.distinct hv n []).congr fun es w c => ?_
  constructor
  · rintro ⟨new, rfl, hlength, hnodup, -, hs⟩
    exact ⟨hlength, hnodup, hs⟩
  · rintro ⟨hlength, hnodup, hs⟩
    exact ⟨es, rfl, hlength, hnodup, by simp, hs⟩

theorem mapOf [DecidableEq α] {short excess duplicate : ε} {value : Parser ε β}
    {V : Grammar β} (hp : Reads p G) (hv : Reads value V) :
    Reads (Grammars.mapOf short excess duplicate p value) (countedMap (pair G V)) :=
  charged fun n => hp.entries hv n

theorem room {short : ε} {count size : ℕ} (hp : Reads p G) (hsize : 0 < size)
    (hlength : ∀ a w c, G a w c → count*size ≤ w.length) :
    Reads (Grammars.room short count size p) G where
  sound hoffset h := by
    unfold Grammars.room at h
    split_ifs at h
    · cases h
    · exact hp.sound hoffset h
  complete {data rest w offset c a b} hs hg hb := by
    have hleft : count ≤ (data.length-offset)/size := by
      rw [Nat.le_div_iff_mul_le hsize]
      have := hlength a w c hg
      have := hs.available
      omega
    rw [Grammars.room, if_neg (Nat.not_lt.mpr hleft)]
    exact hp.complete hs hg hb

theorem raising {ε' : Type} {g : ε → ε'} (hp : Reads p G) : Reads (Grammars.raising g p) G where
  sound {data offset final a b b'} hoffset h := by
    unfold Grammars.raising at h
    cases hrun : p data offset b with
    | ok r s =>
      rw [hrun] at h
      cases h
      exact hp.sound hoffset hrun
    | error e s =>
      rw [hrun] at h
      cases h
  complete hs hg hb := by
    rw [Grammars.raising, hp.complete hs hg hb]

/-- Two parsers of one grammar accept alike. -/
theorem agree {ε' : Type} {q : Parser ε' α} (hp : Reads p G) (hq : Reads q G) {data : Bytes}
    {offset : ℕ} (hoffset : offset ≤ data.length) {r : α × ℕ} {b b' : Option ℕ}
    (h : p data offset b = .ok r b') : q data offset b = .ok r b' := by
  obtain ⟨w, rest, c, hs, hfinal, hg, hb, rfl⟩ := hp.sound (e := r.2) hoffset h
  rw [hq.complete hs hg hb, ← hfinal]

end Reads

/-- A reader of the rest of the buffer accepts exactly a grammar, within the budget. -/
def Accepts {ε α : Type} (x : Bytes → ℕ → EStateM ε (Option ℕ) α) (G : Grammar α) : Prop :=
  ∀ {data : Bytes} {offset : ℕ} {a : α} {b b' : Option ℕ}, offset ≤ data.length →
    (x data offset b = .ok a b' ↔ ∃ c, G a (data.drop offset) c ∧ Affords b c ∧ b' = spend b c)

namespace Accepts

variable {ε α β : Type} {p : Parser ε α} {G : Grammar α} {H : α → Grammar β}

theorem congr {x : Bytes → ℕ → EStateM ε (Option ℕ) α} {G' : Grammar α} (h : Accepts x G)
    (hG : ∀ a w c, G a w c ↔ G' a w c) : Accepts x G' := by
  intro data offset a b b' hoffset
  rw [h hoffset]
  simp only [hG]

theorem whole (trailing : ε) (hp : Reads p G) : Accepts (Grammars.whole trailing p) G := by
  intro data offset a b b' hoffset
  constructor
  · intro h
    obtain ⟨⟨x, final⟩, s, hx, h⟩ := bind_eq_ok h
    obtain ⟨w, rest, c, hs, hfinal, hg, hb, rfl⟩ := hp.sound hoffset hx
    dsimp only at h
    split_ifs at h with hend
    · cases h
    · obtain ⟨rfl, rfl⟩ := pure_eq_ok h
      have hrest : rest = [] := by
        have := hs.advance.length
        exact List.length_eq_zero_iff.mp (by omega)
      rw [hs.drop, hrest, List.append_nil]
      exact ⟨c, hg, hb, rfl⟩
  · rintro ⟨c, hg, hb, rfl⟩
    have hs : Suffix data offset (data.drop offset++[]) := by
      rw [List.append_nil]
      exact ⟨hoffset, rfl⟩
    have hend : offset+(data.drop offset).length = data.length := by
      rw [List.length_drop]
      omega
    rw [Grammars.whole, bind_of_ok (hp.complete hs hg hb), hend]
    simp

/-- A parser, and a reader of what is left behind it. -/
theorem bind {f : α → Bytes → ℕ → EStateM ε (Option ℕ) β} (hp : Reads p G)
    (hf : ∀ a, Accepts (f a) (H a)) : Accepts (fun data offset => do
      let (a, offset) ← p data offset
      f a data offset) (after G H) := by
  intro data offset a b b' hoffset
  constructor
  · intro h
    obtain ⟨⟨x, final⟩, s, hx, h⟩ := bind_eq_ok h
    obtain ⟨w, rest, c, hs, rfl, hg, hb, rfl⟩ := hp.sound hoffset hx
    obtain ⟨c', hh, hb', rfl⟩ := (hf x hs.available).mp h
    rw [hs.advance.drop] at hh
    refine ⟨c+c', ⟨x, w, c, rest, c', hg, hh, hs.drop, rfl⟩, fun n hn => ?_, by rw [spend_spend]⟩
    have h₁ := hb n hn
    have h₂ := hb' (n-c) (by rw [hn]; rfl)
    omega
  · rintro ⟨c, ⟨x, w, c₁, rest, c₂, hg, hh, hdrop, rfl⟩, hb, rfl⟩
    have hs : Suffix data offset (w++rest) := ⟨hoffset, hdrop⟩
    have hx := hp.complete hs hg (hb.mono (Nat.le_add_right _ _))
    show (p data offset >>= fun r => f r.1 data r.2) b = _
    rw [bind_of_ok hx]
    refine (hf x hs.available).mpr ⟨c₂, ?_, hb.spend, by rw [spend_spend]⟩
    rwa [hs.advance.drop]

end Accepts
end FerricStore.Grammars
