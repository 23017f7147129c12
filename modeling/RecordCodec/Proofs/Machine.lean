import Mathlib.Data.Nat.Bitwise
import RecordCodec.Machine
import RecordCodec.Proofs.Admission

/-! # Reading on a machine

What reads on a machine without room for elements does the same as the operations of a reader, from
every reader, and never stops.
-/
namespace RecordCodec

namespace Machine

variable {α β : Type}

/-- The outcome of an operation of a reader, as a machine tells it. -/
def told : EStateM.Result Error Reader α → EStateM.Result Halt Cursor α
  | .ok a r => .ok a r.cursor
  | .error e r => .error (.error e) r.cursor

/-- From the cursor of every reader, the machine does what the operation does. -/
def Does (m : Run α) (x : Read α) : Prop := ∀ r : Reader, m r.cursor = told (x r)

variable {m : Run α} {x : Read α} {f : α → Run β} {g : α → Read β}

/-- Sequencing, where what follows is only asked of values that are read. -/
theorem Does.bind_of (h : Does m x) (k : ∀ a r s, x r = .ok a s → Does (f a) (g a)) :
    Does (m >>= f) (x >>= g) := by
  intro r
  have hr := h r
  cases hx : x r with
  | ok a s =>
    rw [hx] at hr
    rw [EStateM.bind_of_ok f hr, EStateM.bind_of_ok g hx]
    exact k a r s hx s
  | error e s =>
    rw [hx] at hr
    rw [EStateM.bind_of_error f hr, EStateM.bind_of_error g hx]
    rfl

theorem Does.bind (h : Does m x) (k : ∀ a, Does (f a) (g a)) : Does (m >>= f) (x >>= g) :=
  h.bind_of fun a _ _ _ => k a

theorem Does.pure (a : α) : Does (pure a) (pure a) := fun _ => rfl

theorem Does.map (v : α → β) (h : Does m x) : Does (v <$> m) (v <$> x) :=
  h.bind fun a => .pure (v a)

section
variable {γ : Type} {y : Read γ} {v : γ → α}

/-! The machine may hold what is read in its own form. -/

theorem Does.of_ok (h : Does m (v <$> y)) {r s : Reader} {c : γ} (hy : y r = .ok c s) :
    m r.cursor = .ok (v c) s.cursor := by
  have hr : m r.cursor = told ((y >>= fun c => Pure.pure (v c)) r) := h r
  rw [EStateM.bind_of_ok _ hy] at hr
  exact hr

theorem Does.of_error (h : Does m (v <$> y)) {r s : Reader} {e : Error} (hy : y r = .error e s) :
    m r.cursor = .error (.error e) s.cursor := by
  have hr : m r.cursor = told ((y >>= fun c => Pure.pure (v c)) r) := h r
  rw [EStateM.bind_of_error _ hy] at hr
  exact hr

theorem Does.bind_map {k : γ → Read β} (h : Does m (v <$> y)) (hk : ∀ c, Does (f (v c)) (k c)) :
    Does (m >>= f) (y >>= k) := by
  intro r
  cases hy : y r with
  | ok c s =>
    rw [EStateM.bind_of_ok f (h.of_ok hy), EStateM.bind_of_ok k hy]
    exact hk c s
  | error e s =>
    rw [EStateM.bind_of_error f (h.of_error hy), EStateM.bind_of_error k hy]
    rfl

end

theorem Does.throw (e : Error) : Does (fail e : Run α) (throw e) := fun _ => rfl

theorem Does.fault (e : Fault) : Does (fault e : Run α) (Read.fault e) := fun _ => rfl

theorem Does.ite {c : Prop} [Decidable c] {m' : Run α} {x' : Read α} (h : Does m x)
    (h' : Does m' x') : Does (if c then m else m') (if c then x else x') := by
  by_cases hc : c
  · rwa [if_pos hc, if_pos hc]
  · rwa [if_neg hc, if_neg hc]

theorem subtract_of_le {m n : Nat} (h : n ≤ m) (c : Cursor) : subtract m n c = .ok (m - n) c := by
  unfold subtract
  rw [if_pos h]
  rfl

theorem part_of_le (as : List α) {first behind : Nat} (h : first ≤ behind)
    (hb : behind ≤ as.length) (c : Cursor) :
    part as first behind c = .ok ((as.drop first).take (behind - first)) c := by
  unfold part
  rw [if_pos ⟨h,hb⟩, List.drop_take]
  rfl

theorem copy_of_length {room bytes : List UInt8} (h : room.length = bytes.length) (c : Cursor) :
    copy room bytes c = .ok bytes c := by
  unfold copy
  rw [if_pos h]
  rfl

theorem shiftLeft_of_lt {count : Nat} (h : count < wordBits) (n : Nat) (c : Cursor) :
    shiftLeft n count c = .ok ((n <<< count) % 2 ^ wordBits) c := by
  unfold shiftLeft
  rw [if_pos h, Nat.one_shiftLeft]
  rfl

theorem shiftRight_of_lt {count : Nat} (h : count < wordBits) (n : Nat) (c : Cursor) :
    shiftRight n count c = .ok (n >>> count) c := by
  unfold shiftRight
  rw [if_pos h]
  rfl

theorem represent_of_checked {n total : Nat} (h : checked n = some total) (c : Cursor) :
    represent total c = .ok total c := by
  unfold checked at h
  split at h
  · rename_i hn
    cases h
    unfold represent
    rw [if_pos hn]
    rfl
  · cases h

theorem get_bind (f : Cursor → Run α) (c : Cursor) : (get >>= f) c = f c c := rfl

theorem moveTo_of_le {c : Cursor} {position : Nat} (h : c.position ≤ position)
    (hp : position ≤ c.bytes.length) : moveTo position c = .ok () { c with position } := by
  unfold moveTo
  rw [get_bind, if_pos ⟨h,hp⟩]
  rfl

theorem does_remaining : Does remaining Read.remaining := by
  intro r
  have hs := subtract_of_le r.position_le r.cursor
  rw [← r.remaining_eq] at hs
  exact hs

/-- A position past the end, which no reader has, stops the machine. -/
example : remaining ⟨[],1,{}⟩ = .error (.panic .difference) ⟨[],1,{}⟩ := rfl

theorem does_take (n : Nat) : Does (take n) (Read.take n) := by
  intro r
  have hr : r.remaining = r.rest.length := rfl
  have hlen := r.remaining_eq
  have hpos := r.position_le
  refine (EStateM.bind_of_ok _ (does_remaining r)).trans ?_
  by_cases hn : n ≤ r.rest.length
  · have hbytes : r.position + n ≤ r.bytes.length := by omega
    have hpart := part_of_le r.bytes (Nat.le_add_right r.position n) hbytes r.cursor
    have hmove := moveTo_of_le (c := r.cursor) (Nat.le_add_right r.position n) hbytes
    rw [Nat.add_sub_cancel_left, ← r.rest_eq] at hpart
    rw [if_neg (by omega), get_bind]
    refine (EStateM.bind_of_ok _ hpart).trans ((EStateM.bind_of_ok _ hmove).trans ?_)
    unfold Read.take
    rw [dif_pos hn]
    rfl
  · rw [if_pos (by omega)]
    unfold Read.take
    rw [dif_neg hn]
    rfl

theorem does_nat (width : Nat) : Does (nat width) (Read.nat width) := by
  refine (does_take width).bind_of fun b r s hb => ?_
  have hl : (List.replicate width (0 : UInt8)).length = b.length := by
    rw [List.length_replicate, (Read.take_eq_ok.mp hb).2]
  exact fun t => EStateM.bind_of_ok _ (copy_of_length hl t.cursor)

theorem byte_lt {r s : Reader} {b : Nat} (h : Read.nat 1 r = .ok b s) : b < 256 :=
  Read.returns_nat 1 r b s h

theorem and_0x7F (b : Nat) : b &&& 0x7F = b % 128 := Nat.and_two_pow_sub_one_eq_mod b 7

/-- The top bit of a byte. -/
theorem and_0x80 {b : Nat} (h : b < 256) : b &&& 0x80 = 0 ↔ b < 128 := by
  have hb : b &&& 2 ^ 7 = (b.testBit 7).toNat * 2 ^ 7 := Nat.and_two_pow b 7
  have ht : b.testBit 7 = decide (b / 2 ^ 7 % 2 = 1) := Nat.testBit_eq_decide_div_mod_eq
  change b &&& 2 ^ 7 = 0 ↔ _
  rw [hb, ht]
  by_cases hc : b / 2 ^ 7 % 2 = 1
  · rw [decide_eq_true hc]
    constructor
    · intro hz
      cases hz
    · intro hlt
      omega
  · rw [decide_eq_false hc]
    constructor
    · intro
      omega
    · exact fun _ => rfl

theorem two_pow_mul (index : Nat) : 2 ^ (7 * index) = 128 ^ index := Nat.pow_mul 2 7 index

/-- A group behind the ones before is added to them. -/
theorem or_group {low index group : Nat} (hl : low < 128 ^ index)
    (hg : group * 128 ^ index < 2 ^ wordBits) :
    low ||| ((group <<< (7 * index)) % 2 ^ wordBits) = low + group * 128 ^ index := by
  rw [Nat.shiftLeft_eq, two_pow_mul, Nat.mod_eq_of_lt hg, Nat.or_comm, ← two_pow_mul,
    ← Nat.shiftLeft_eq, ← Nat.shiftLeft_add_eq_or_of_lt (by rwa [two_pow_mul]), Nat.add_comm]

theorem does_varintGroups {more index low : Nat} (h : index + more = Bytes.Varint.maxBytes - 1)
    (hl : low < 128 ^ index) :
    Does (varintGroups low index (more + 1)) (Read.varintGroups (128 ^ index) low more) := by
  have hmax : Bytes.Varint.maxBytes - 1 = 9 := rfl
  have hword : wordBits = 64 := rfl
  induction more generalizing index low with
  | zero =>
    obtain rfl : index = 9 := by omega
    refine (does_nat 1).bind_of fun b r s hb => ?_
    by_cases hb1 : b > 1
    · rw [if_pos ⟨hmax.symm,hb1⟩, if_pos hb1]
      exact .fault _
    · have hand : b &&& 0x80 = 0 := (and_0x80 (byte_lt hb)).mpr (by omega)
      have hgroup : b % 128 = b := Nat.mod_eq_of_lt (by omega)
      have hfit : b * 128 ^ 9 < 2 ^ wordBits := by
        rw [hword]
        omega
      rw [if_neg (fun hc => hb1 hc.2), if_neg hb1]
      intro t
      refine (EStateM.bind_of_ok _ (shiftLeft_of_lt (by omega) _ t.cursor)).trans ?_
      rw [and_0x7F, hgroup, or_group hl hfit, if_pos hand]
      rfl
  | succ more ih =>
    refine (does_nat 1).bind_of fun b r s hb => ?_
    have hindex : ¬ index = Bytes.Varint.maxBytes - 1 := by omega
    have hle : 128 ^ (index + 1) ≤ 128 ^ 9 := Nat.pow_le_pow_right (by omega) (by omega)
    have hpow : 128 ^ (index + 1) = 128 ^ index * 128 := Nat.pow_succ _ _
    have hmod : b % 128 * 128 ^ index ≤ 127 * 128 ^ index :=
      Nat.mul_le_mul_right _ (by omega)
    have hfit : b % 128 * 128 ^ index < 2 ^ wordBits := by
      rw [hword]
      omega
    rw [if_neg (fun hc => hindex hc.1)]
    intro t
    refine (EStateM.bind_of_ok _ (shiftLeft_of_lt (by omega) _ t.cursor)).trans ?_
    rw [and_0x7F, or_group hl hfit]
    dsimp only
    by_cases hb128 : b < 128
    · rw [if_pos ((and_0x80 (byte_lt hb)).mpr hb128), if_pos hb128]
      rfl
    · rw [if_neg (fun hc => hb128 ((and_0x80 (byte_lt hb)).mp hc)), if_neg hb128, ← hpow]
      exact ih (by omega) (by omega) t

theorem does_varint : Does varint Read.varint := by
  have hindex : 0 + 9 = Bytes.Varint.maxBytes - 1 := rfl
  exact does_varintGroups hindex Nat.one_pos

theorem does_length : Does length Read.length :=
  does_varint.bind fun n r =>
    Does.ite (c := n ≤ r.options.maxLength) (.pure n) (.fault (.length n r.options.maxLength)) r

theorem does_bool : Does bool Read.bool := by
  refine (does_nat 1).bind fun b => ?_
  rcases b with _ | _ | b
  · exact .pure false
  · exact .pure true
  · exact .fault _

theorem does_char : Does char Read.char := by
  refine (does_nat 4).bind fun code => ?_
  by_cases hv : code.isValidChar
  · rw [dif_pos hv, dif_pos hv]
    exact .pure _
  · rw [dif_neg hv, dif_neg hv]
    exact .fault _

theorem does_byteString : Does byteString Read.byteString := does_length.bind does_take

theorem does_text : Does text Read.text := by
  refine does_byteString.bind fun b => ?_
  cases Text.Utf8.decode b with
  | ok s => exact .pure _
  | error f => exact .fault _

theorem does_duration : Does duration Read.duration :=
  (does_nat 8).bind fun _ => (does_nat 4).bind fun _ => .ite (.pure _) (.fault _)

theorem does_scalar (s : Scalar) : Does (scalar s) s.read := by
  cases s with
  | bool => exact does_bool.map _
  | char => exact does_char.map _
  | u8 | u16 | u32 | u64 | u128 => exact ((does_nat _).bind fun n => .pure (n : Int)).map _
  | i8 | i16 | i32 | i64 | i128 =>
    exact (does_nat _).map fun n => Value.int (Bytes.LittleEndian.signed _ n)
  | f32 | f64 => exact (does_nat _).map Value.float

theorem Does.times {m : Run Unit} {x : Read Unit} (h : Does m x) (n : Nat) :
    Does (times m n) (Read.times n x) := by
  induction n with
  | zero => exact .pure ()
  | succ n ih => exact h.bind fun _ => ih

end Machine
end RecordCodec
