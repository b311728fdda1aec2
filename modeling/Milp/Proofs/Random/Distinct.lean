import Mathlib.Algebra.Ring.Nat
import Mathlib.Data.List.Nodup
import Milp.Random.Seed

/-!
# Derived seeds never collide

Every step of the mix can be undone: multiplication by an odd constant by that with its inverse
modulo `2 ^ 64`, and the xor of a word with itself shifted to the right from the highest bit down.
So the mix is injective, and a seed is derived from a base and a stream through a sum in which
either determines the other. A context gives every seed a stream of its own until its counter is
back at the start, hence it never hands out a seed twice (`spawned_distinct`), whether the seeds are
asked for or engines are made of them.
-/

namespace Milp.Random

/-! ### Steps that lose nothing -/

/-- A word is restored from its xor with itself shifted to the right: a bit is known as soon as the
one that is shifted onto it is, and onto the highest bits nothing is shifted. -/
theorem eq_of_xor_shift_eq {w k : ℕ} (pos : 0 < k) {x y : BitVec w}
    (h : x ^^^ (x >>> k) = y ^^^ (y >>> k)) : x = y := by
  have bits : ∀ n i, w ≤ i + n → x.getLsbD i = y.getLsbD i := by
    intro n
    induction n with
    | zero =>
      intro i beyond
      rw [BitVec.getLsbD_of_ge x i beyond, BitVec.getLsbD_of_ge y i beyond]
    | succ n ih =>
      intro i within
      have above : x.getLsbD (k + i) = y.getLsbD (k + i) := ih (k + i) (by omega)
      have same := congrArg (BitVec.getLsbD · i) h
      simp only [BitVec.getLsbD_xor, BitVec.getLsbD_ushiftRight, above] at same
      exact Bool.xor_left_inj.mp same
  exact BitVec.eq_of_getLsbD_eq fun i _ => bits w i (Nat.le_add_left w i)

/-- So the xor with a word shifted by a constant loses nothing. -/
theorem xor_shift_injective {k : UInt64} (pos : 0 < k.toNat % 64) :
    Function.Injective fun z : UInt64 => z ^^^ (z >>> k) := by
  intro x y h
  have same := congrArg UInt64.toBitVec h
  simp only [UInt64.toBitVec_xor, UInt64.toBitVec_shiftRight] at same
  exact UInt64.toBitVec_inj.mp (eq_of_xor_shift_eq (by simpa using pos) same)

/-- A factor that has an inverse loses nothing. -/
theorem mul_injective {factor inverse : UInt64} (unit : factor * inverse = 1) :
    Function.Injective fun z : UInt64 => z * factor := by
  intro x y h
  have same := congrArg (· * inverse) h
  simpa only [UInt64.mul_assoc, unit, UInt64.mul_one] using same

/-- The mix loses nothing. -/
theorem mix_injective : Function.Injective mix := by
  have first : (0xBF58476D1CE4E5B9 : UInt64) * 0x96DE1B173F119089 = 1 := by decide
  have second : (0x94D049BB133111EB : UInt64) * 0x319642B2D24D8EC3 = 1 := by decide
  exact (xor_shift_injective (k := 31) (by decide)).comp <|
    (mul_injective second).comp <| (xor_shift_injective (k := 27) (by decide)).comp <|
      (mul_injective first).comp <| xor_shift_injective (k := 30) (by decide)

/-- Different streams of a seed have different seeds. -/
theorem derive_injective (base : UInt64) : Function.Injective (derive base) := by
  have step : (0x9E3779B97F4A7C15 : UInt64) * 0xF1DE83E19937733D = 1 := by decide
  intro x y h
  have sums := mix_injective h
  exact mul_injective step
    ((UInt64.add_right_inj base).mp ((UInt64.add_left_inj 0x9E3779B97F4A7C15).mp sums))

/-- Different seeds have different seeds on every stream. -/
theorem derive_base_injective (stream : UInt64) : Function.Injective (derive · stream) := by
  intro x y h
  have sums := mix_injective h
  exact (UInt64.add_left_inj _).mp ((UInt64.add_left_inj 0x9E3779B97F4A7C15).mp sums)

/-! ### What a context hands out -/

namespace SeedContext

/-- A way to ask for the next seed: as it is, or as an engine. -/
inductive Request where
  | seed
  | engine

/-- What is handed out for a request. -/
inductive Reply where
  | seed (value : UInt64)
  | engine (started : Engine)

/-- The reply to a request for which a seed is taken. -/
def Request.reply : Request → UInt64 → Reply
  | .seed, value => .seed value
  | .engine, value => .engine (.ofSeed value)

/-- Hands out the next seed. -/
def answer (c : SeedContext) : Request → Reply × SeedContext
  | .seed =>
    let (value, c) := c.spawn
    (.seed value, c)
  | .engine =>
    let (started, c) := c.spawnEngine
    (.engine started, c)

/-- Hands out seeds one after the other. -/
def answers (c : SeedContext) : List Request → List Reply × SeedContext
  | [] => ([], c)
  | r :: rs =>
    let (reply, c) := c.answer r
    let (replies, c) := c.answers rs
    (reply :: replies, c)

/-- The seeds on the streams behind the counter, `n` of them. -/
def upcoming (c : SeedContext) (n : ℕ) : List UInt64 :=
  (List.range n).map fun i => derive c.seed (c.spawned + UInt64.ofNat (i + 1))

/-- A request takes the seed on the next stream. -/
theorem answer_eq (c : SeedContext) (r : Request) :
    c.answer r =
      (r.reply (derive c.seed (c.spawned + 1)), { c with spawned := c.spawned + 1 }) := by
  cases r <;> rfl

/-- The seed on the next stream comes first. -/
theorem upcoming_succ (c : SeedContext) (n : ℕ) :
    c.upcoming (n + 1) = derive c.seed (c.spawned + 1) ::
      ({ c with spawned := c.spawned + 1 } : SeedContext).upcoming n := by
  rw [upcoming, List.range_succ_eq_map, List.map_cons, List.map_map]
  refine congrArg (_ :: ·) (List.map_congr_left fun i _ => ?_)
  show derive c.seed (c.spawned + UInt64.ofNat (i + 1 + 1)) =
    derive c.seed (c.spawned + 1 + UInt64.ofNat (i + 1))
  rw [UInt64.ofNat_add (i + 1) 1, UInt64.add_comm _ (UInt64.ofNat 1), UInt64.add_assoc]
  rfl

/-- Requests take the seeds on the streams behind the counter. -/
theorem answers_eq (c : SeedContext) (rs : List Request) :
    c.answers rs = (List.zipWith Request.reply rs (c.upcoming rs.length),
      { c with spawned := c.spawned + UInt64.ofNat rs.length }) := by
  induction rs generalizing c with
  | nil => simp [answers]
  | cons r rs ih =>
    rw [List.length_cons, upcoming_succ, List.zipWith_cons_cons, answers, answer_eq]
    simp only [ih]
    rw [UInt64.add_assoc, Nat.add_comm rs.length 1, UInt64.ofNat_add]
    rfl

/-- Fewer streams than there are have different seeds. -/
theorem nodup_upcoming (c : SeedContext) {n : ℕ} (few : n < 2 ^ 64) : (c.upcoming n).Nodup := by
  refine List.Nodup.map_on (fun i hi j hj same => ?_) List.nodup_range
  have exact : ∀ k < n, (UInt64.ofNat (k + 1)).toNat = k + 1 := fun k below =>
    UInt64.toNat_ofNat_of_lt' (show k + 1 < 2 ^ 64 by omega)
  have streams := (UInt64.add_right_inj c.spawned).mp (derive_injective c.seed same)
  have numbers := congrArg UInt64.toNat streams
  rw [exact i (List.mem_range.mp hi), exact j (List.mem_range.mp hj)] at numbers
  omega

end SeedContext

/-- For a base seed, different streams have different seeds; on a stream, different base seeds have
different seeds. A context that was seeded answers requests, be they for seeds or for engines, with
the seeds on the streams from one on, and fewer than `2 ^ 64` of these are all different. -/
theorem spawned_distinct :
    (∀ base, Function.Injective (derive base)) ∧
      (∀ stream, Function.Injective (derive · stream)) ∧
      ∀ (seed : UInt64) (requests : List SeedContext.Request), requests.length < 2 ^ 64 →
        ∃ seeds : List UInt64,
          seeds = (List.range requests.length).map (fun i => derive seed (UInt64.ofNat (i + 1))) ∧
          seeds.Nodup ∧
          ((SeedContext.ofSeed seed).answers requests).1 =
            List.zipWith SeedContext.Request.reply requests seeds := by
  refine ⟨derive_injective, derive_base_injective, fun seed requests few => ?_⟩
  have seeds_eq : (SeedContext.ofSeed seed).upcoming requests.length =
      (List.range requests.length).map fun i => derive seed (UInt64.ofNat (i + 1)) := by
    refine List.map_congr_left fun i _ => ?_
    exact congrArg (derive seed) (UInt64.zero_add _)
  refine ⟨(SeedContext.ofSeed seed).upcoming requests.length, seeds_eq, ?_, ?_⟩
  · exact SeedContext.nodup_upcoming _ few
  · rw [SeedContext.answers_eq]

/-- Three seeds of a context, one of them as an engine. -/
theorem trio_distinct :
    let requests : List SeedContext.Request := [.seed, .engine, .seed]
    requests.length < 2 ^ 64 ∧
      ∃ a b c : UInt64, [a, b, c].Nodup ∧
        ((SeedContext.ofSeed 7).answers requests).1 = [.seed a, .engine (.ofSeed b), .seed c] := by
  intro requests
  have few : requests.length < 2 ^ 64 := by decide
  obtain ⟨-, -, spawned⟩ := spawned_distinct
  obtain ⟨seeds, seeds_eq, distinct, replies⟩ := spawned 7 requests few
  rw [seeds_eq] at distinct replies
  exact ⟨few, derive 7 1, derive 7 2, derive 7 3, distinct, replies⟩

end Milp.Random
