import FerricStore.ValueCodecRoundTrip

/-!
# The encoder's byte bound

The bound is checked at every write, and for text by a count of code points before the
text is encoded. A writer either emits a fixed byte string or fails, with and without a
bound: a bounded run emits the same bytes if they fit and stops if they do not, and what
reached the sink never exceeds the bound. This is kept by sequencing, so it is proved once
for each write and then by induction over the value.
-/

set_option autoImplicit false

namespace FerricStore.ValueCodec
open Text Stateful ValueWriter

/-- The run stopped, and what it wrote before stays within the bound. -/
def Stops (m : ℕ) (r : EStateM.Result Err ValueWriter Unit) : Prop :=
  ∃ e w, r = .error e w ∧ w.sink.length ≤ m

structure Emits (x : Writing) (b : Bytes) : Prop where
  unbounded : ∀ sink, x ⟨none, sink⟩ = .ok () ⟨none, sink++b⟩
  fits : ∀ m sink, (sink++b).length ≤ m → x ⟨some m, sink⟩ = .ok () ⟨some m, sink++b⟩
  stops : ∀ m sink, sink.length ≤ m → m < (sink++b).length → Stops m (x ⟨some m, sink⟩)

structure Fails (x : Writing) : Prop where
  unbounded : ∀ sink, ∃ e w, x ⟨none, sink⟩ = .error e w
  stops : ∀ m sink, sink.length ≤ m → Stops m (x ⟨some m, sink⟩)

def Bounded (x : Writing) : Prop := (∃ b, Emits x b) ∨ Fails x

theorem Stops.bind {m : ℕ} {x y : Writing} {w : ValueWriter} (h : Stops m (x w)) :
    Stops m ((x >>= fun _ => y) w) := by
  obtain ⟨e, t, ht, hle⟩ := h
  exact ⟨e, t, bind_of_error ht _, hle⟩

theorem Emits.bind {x y : Writing} {b c : Bytes} (hx : Emits x b) (hy : Emits y c) :
    Emits (x >>= fun _ => y) (b++c) where
  unbounded sink := by
    rw [bind_of_ok (hx.unbounded sink), hy.unbounded, List.append_assoc]
  fits m sink h := by
    rw [← List.append_assoc] at h ⊢
    have hb : (sink++b).length ≤ m := le_trans (by simp) h
    rw [bind_of_ok (hx.fits m sink hb)]
    exact hy.fits m (sink++b) h
  stops m sink hs h := by
    rw [← List.append_assoc] at h
    by_cases hb : (sink++b).length ≤ m
    · rw [bind_of_ok (hx.fits m sink hb)]
      exact hy.stops m (sink++b) hb h
    · exact (hx.stops m sink hs (by omega)).bind

theorem Fails.bind {x y : Writing} (hx : Fails x) : Fails (x >>= fun _ => y) where
  unbounded sink := by
    obtain ⟨e, w, h⟩ := hx.unbounded sink
    exact ⟨e, w, bind_of_error h _⟩
  stops m sink h := (hx.stops m sink h).bind

theorem Emits.fails {x y : Writing} {b : Bytes} (hx : Emits x b) (hy : Fails y) :
    Fails (x >>= fun _ => y) where
  unbounded sink := by
    rw [bind_of_ok (hx.unbounded sink)]
    exact hy.unbounded (sink++b)
  stops m sink h := by
    by_cases hb : (sink++b).length ≤ m
    · rw [bind_of_ok (hx.fits m sink hb)]
      exact hy.stops m (sink++b) hb
    · exact (hx.stops m sink h (by omega)).bind

theorem Bounded.bind {x y : Writing} (hx : Bounded x) (hy : Bounded y) :
    Bounded (x >>= fun _ => y) := by
  rcases hx with ⟨b, hb⟩ | hx
  · rcases hy with ⟨c, hc⟩ | hy
    · exact Or.inl ⟨b++c, hb.bind hc⟩
    · exact Or.inr (hb.fails hy)
  · exact Or.inr hx.bind

theorem throw_bounded (e : Err) : Bounded (throw e) :=
  Or.inr ⟨fun _ => ⟨e, _, rfl⟩, fun _ _ h => ⟨e, _, rfl, h⟩⟩

theorem ite_bounded {c : Prop} [Decidable c] {x y : Writing} (hx : Bounded x)
    (hy : Bounded y) : Bounded (if c then x else y) := by
  split_ifs
  · exact hx
  · exact hy

theorem pure_emits : Emits (pure ()) [] where
  unbounded sink := by simp
  fits m sink _ := by simp
  stops m sink hs h := by
    rw [List.append_nil] at h
    omega

theorem write_bounded_eq (m : ℕ) (sink b : Bytes) :
    write b ⟨some m, sink⟩ = if sink.length+b.length ≤ m then .ok () ⟨some m, sink++b⟩
      else .error .encodedValueLimit ⟨some m, sink⟩ := by
  by_cases h : sink.length+b.length ≤ m
  · have hcap : ensureCapacity b.length ⟨some m, sink⟩ = .ok () ⟨some m, sink⟩ := by
      have hroom : ¬(b.length : ℤ) > m-sink.length := by omega
      simp only [ensureCapacity, if_neg hroom]
    rw [write, bind_of_ok hcap, if_pos h]
    rfl
  · have hcap : ensureCapacity b.length ⟨some m, sink⟩ =
        .error .encodedValueLimit ⟨some m, sink⟩ := by
      have hroom : (b.length : ℤ) > m-sink.length := by omega
      simp only [ensureCapacity, if_pos hroom]
    rw [write, bind_of_error hcap, if_neg h]

theorem write_emits (b : Bytes) : Emits (write b) b where
  unbounded sink := write_unbounded sink b
  fits m sink h := by
    rw [List.length_append] at h
    rw [write_bounded_eq, if_pos h]
  stops m sink hs h := by
    rw [List.length_append] at h
    rw [write_bounded_eq, if_neg (by omega)]
    exact ⟨_, _, rfl, hs⟩

theorem write_bounded (b : Bytes) : Bounded (write b) := Or.inl ⟨b, write_emits b⟩

theorem writeBinaryLength_bounded (size : ℕ) : Bounded (writeBinaryLength size) :=
  ite_bounded (throw_bounded _) (write_bounded _)

theorem writeCollectionHeader_bounded (tag : UInt8) (count : ℕ) :
    Bounded (writeCollectionHeader tag count) :=
  ite_bounded (throw_bounded _) ((write_bounded _).bind (write_bounded _))

theorem writeBinary_bounded (b : Bytes) : Bounded (writeBinary b) :=
  (write_bounded _).bind ((writeBinaryLength_bounded _).bind (write_bounded _))

theorem writeInt_bounded (n : ℤ) : Bounded (writeInt n) :=
  ite_bounded ((write_bounded _).bind (write_bounded _))
    (ite_bounded ((write_bounded _).bind (write_bounded _)) (throw_bounded _))

/-! The count of code points before text is encoded. -/

theorem utf8SizeExceeds_iff (limit : ℤ) (size : ℤ) (s : Str) (h : size ≤ limit) :
    utf8SizeExceeds limit size s = true ↔ limit < size+(utf8 s).length := by
  induction s generalizing size with
  | nil =>
    simp only [utf8SizeExceeds, Bool.false_eq_true, false_iff]
    simp only [utf8, List.flatMap_nil, List.length_nil]
    omega
  | cons c s ih =>
    have hlength : (utf8 (c::s)).length = utf8Size c+(utf8 s).length := by
      simp only [utf8, List.flatMap_cons, List.length_append, utf8Point_length]
    rw [utf8SizeExceeds, hlength]
    split_ifs with hbig
    · simp only [true_iff]
      omega
    · rw [ih _ (by omega)]
      omega

/-- The check is exact: the size classes of the scan are those of the encoding. -/
theorem requireUtf8Within_eq (s : Str) (limit : ℤ) (w : ValueWriter) :
    requireUtf8Within s limit w = if ((utf8 s).length : ℤ) ≤ limit then .ok () w
      else .error .encodedValueLimit w := by
  have hmin := length_le_utf8_length s
  unfold requireUtf8Within
  by_cases hlength : (s.length : ℤ) > limit
  · rw [if_pos hlength, if_neg (by omega)]
    rfl
  · rw [if_neg hlength]
    by_cases hascii : isAscii s = true
    · have hsame := utf8_length_ascii s hascii
      rw [if_pos hascii, if_pos (by omega)]
      rfl
    · have hsize := utf8SizeExceeds_iff limit 0 s (by omega)
      rw [if_neg hascii]
      by_cases hfits : ((utf8 s).length : ℤ) ≤ limit
      · rw [if_pos hfits, if_neg (fun h => by have := hsize.mp h; omega)]
        rfl
      · rw [if_neg hfits, if_pos (hsize.mpr (by omega))]
        rfl

theorem requireStrCapacity_eq (m : ℕ) (sink : Bytes) (s : Str) :
    requireStrCapacity s ⟨some m, sink⟩ =
      if sink.length+5+(utf8 s).length ≤ m then .ok () ⟨some m, sink⟩
      else .error .encodedValueLimit ⟨some m, sink⟩ := by
  show (ensureCapacity 5 >>= fun _ => requireUtf8Within s (m-sink.length-5)) ⟨some m, sink⟩ = _
  by_cases h : sink.length+5 ≤ m
  · have hcap : ensureCapacity 5 ⟨some m, sink⟩ = .ok () ⟨some m, sink⟩ := by
      have hroom : ¬((5 : ℕ) : ℤ) > m-sink.length := by omega
      simp only [ensureCapacity, if_neg hroom]
    rw [bind_of_ok hcap, requireUtf8Within_eq]
    by_cases hfits : sink.length+5+(utf8 s).length ≤ m
    · rw [if_pos hfits, if_pos (by omega)]
    · rw [if_neg hfits, if_neg (by omega)]
  · have hcap : ensureCapacity 5 ⟨some m, sink⟩ = .error .encodedValueLimit ⟨some m, sink⟩ := by
      have hroom : ((5 : ℕ) : ℤ) > m-sink.length := by omega
      simp only [ensureCapacity, if_pos hroom]
    rw [bind_of_error hcap, if_neg (by omega)]

/-- Text that passes the check before its encoding is refused by no later write. -/
theorem Emits.after_capacity {s : Str} {x : Writing} {b : Bytes} (hx : Emits x b)
    (hb : b.length = 5+(utf8 s).length) : Emits (requireStrCapacity s >>= fun _ => x) b where
  unbounded sink := hx.unbounded sink
  fits m sink h := by
    have hcap := requireStrCapacity_eq m sink s
    rw [List.length_append] at h
    rw [if_pos (by omega)] at hcap
    rw [bind_of_ok hcap]
    exact hx.fits m sink (by rwa [List.length_append])
  stops m sink hs h := by
    have hcap := requireStrCapacity_eq m sink s
    rw [List.length_append] at h
    rw [if_neg (by omega)] at hcap
    rw [bind_of_error hcap]
    exact ⟨_, _, rfl, hs⟩

theorem Fails.after_capacity {s : Str} {x : Writing} (hx : Fails x) :
    Fails (requireStrCapacity s >>= fun _ => x) where
  unbounded sink := hx.unbounded sink
  stops m sink hs := by
    have hcap := requireStrCapacity_eq m sink s
    split_ifs at hcap
    · rw [bind_of_ok hcap]
      exact hx.stops m sink hs
    · rw [bind_of_error hcap]
      exact ⟨_, _, rfl, hs⟩

theorem writeStr_bounded (s : Str) : Bounded (writeStr s) := by
  cases he : encode s with
  | none =>
    have hstr : writeStr s = requireStrCapacity s >>= fun _ =>
        throw (.ferricStore "protocol strings must contain valid UTF-8") := by
      rw [writeStr, he]
    have hthrow : Fails (throw (.ferricStore "protocol strings must contain valid UTF-8")) :=
      ⟨fun _ => ⟨_, _, rfl⟩, fun _ _ h => ⟨_, _, rfl, h⟩⟩
    rw [hstr]
    exact Or.inr hthrow.after_capacity
  | some encoded =>
    have hencoded : encoded = utf8 s := by
      unfold encode at he
      split_ifs at he
      exact (Option.some.inj he).symm
    have hstr : writeStr s = requireStrCapacity s >>= fun _ => writeBinary (utf8 s) := by
      rw [writeStr, he, hencoded]
    rw [hstr]
    rcases writeBinary_bounded (utf8 s) with ⟨b, hb⟩ | hfail
    · refine Or.inl ⟨b, hb.after_capacity ?_⟩
      obtain ⟨-, hw⟩ := writeBinary_unbounded [] (utf8 s) _ (hb.unbounded [])
      have hbytes := congrArg ValueWriter.sink hw
      simp only [ValueCodec.unbounded, List.nil_append] at hbytes
      rw [hbytes]
      simp
      omega
    · exact Or.inr hfail.after_capacity

mutual
theorem writeValue_bounded (v : Value) (levels : ℕ) : Bounded (writeValue v levels) := by
  match v, levels with
  | v, 0 =>
    rw [writeValue]
    exact throw_bounded _
  | .none, _+1 => exact write_bounded _
  | .bool true, _+1 => exact write_bounded _
  | .bool false, _+1 => exact write_bounded _
  | .int n, _+1 => exact writeInt_bounded n
  | .float bits, _+1 => exact (write_bounded _).bind (write_bounded _)
  | .str s, _+1 => exact writeStr_bounded s
  | .bytes b, _+1 => exact writeBinary_bounded b
  | .bytearray b, _+1 => exact writeBinary_bounded b
  | .list xs, levels+1 =>
    rw [writeValue]
    exact (writeCollectionHeader_bounded _ _).bind (writeItems_bounded xs levels)
  | .tuple xs, levels+1 =>
    rw [writeValue]
    exact (writeCollectionHeader_bounded _ _).bind (writeItems_bounded xs levels)
  | .dict es, levels+1 =>
    rw [writeValue]
    exact (writeCollectionHeader_bounded _ _).bind (writeEntries_bounded es [] levels)
  | .object _ _, _+1 => exact throw_bounded _
theorem writeItems_bounded (xs : List Value) (levels : ℕ) : Bounded (writeItems xs levels) := by
  match xs with
  | [] => exact Or.inl ⟨[], pure_emits⟩
  | x::xs =>
    rw [writeItems]
    exact (writeValue_bounded x levels).bind (writeItems_bounded xs levels)
theorem writeEntries_bounded (es : List (Key × Value)) (keys : List Bytes) (levels : ℕ) :
    Bounded (writeEntries es keys levels) := by
  match es with
  | [] => exact Or.inl ⟨[], pure_emits⟩
  | (k, x)::es =>
    rw [writeEntries]
    cases keyBytes k with
    | error e => exact throw_bounded e
    | ok key =>
      exact ite_bounded (throw_bounded _) ((writeBinaryLength_bounded _).bind
        ((write_bounded _).bind ((writeValue_bounded x levels).bind
          (writeEntries_bounded es _ levels))))
end

/-- What reached the sink, whatever the outcome. -/
def written : EStateM.Result Err ValueWriter Unit → Bytes
  | .ok _ w => w.sink
  | .error _ w => w.sink

/-- A bounded encode succeeds exactly when the unbounded one does and its bytes fit, with the
same bytes; no more than the bound reaches the sink. -/
theorem encode_bound_exact (v : Value) (m : ℕ) :
    (∀ b, encodeValue v (some m) = .ok b ↔ encodeValue v none = .ok b ∧ b.length ≤ m) ∧
    (written (writeValue v (maxValueNesting+1) ⟨some m, []⟩)).length ≤ m := by
  unfold encodeValue
  rcases writeValue_bounded v (maxValueNesting+1) with ⟨c, hc⟩ | hfail
  · rw [hc.unbounded []]
    by_cases hm : c.length ≤ m
    · rw [hc.fits m [] hm]
      simp only [List.nil_append, Except.ok.injEq]
      exact ⟨fun b => ⟨fun h => ⟨h, h ▸ hm⟩, fun h => h.1⟩, hm⟩
    · obtain ⟨e, w, hw, hle⟩ := hc.stops m [] (Nat.zero_le m) (by simpa using hm)
      rw [hw]
      refine ⟨fun b => ⟨(fun h => by cases h), fun h => ?_⟩, hle⟩
      obtain ⟨hb, hfits⟩ := h
      cases hb
      exact absurd hfits hm
  · obtain ⟨e, w, hw⟩ := hfail.unbounded []
    obtain ⟨e', w', hw', hle⟩ := hfail.stops m [] (Nat.zero_le m)
    rw [hw, hw']
    exact ⟨fun b => ⟨(fun h => by cases h), fun h => by cases h.1⟩, hle⟩

end FerricStore.ValueCodec
