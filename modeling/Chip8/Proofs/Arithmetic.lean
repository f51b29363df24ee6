import Chip8.Proofs.Footprint

/-!
# Arithmetic with a flag

The instructions that add, subtract and shift have a byte and a bit as their result, and the two together
are the exact answer: the flag is the carry of a sum, the bit that a shift pushes out, or it tells that a
difference did without a borrow. The flag is written last, so it is what remains where the flag register is
the destination too; the operands are read before anything is written. The other operations on
two registers have a byte only, and leave the flag register alone unless it is their destination.
-/

set_option autoImplicit false

namespace Chip8

theorem eq_decide_iff (f : Bool) (p : Prop) [Decidable p] : f = decide p ↔ (f.toNat = 1 ↔ p) := by
  rw [Bool.eq_iff_iff, decide_eq_true_iff]
  cases f <;> simp

theorem sum_iff (a b r : UInt8) (f : Bool) :
    (r.toNat : Int) + 256 * f.toNat = a.toNat + b.toNat ↔
      r = a + b ∧ f = decide (256 ≤ a.toNat + b.toNat) := by
  have hr := r.toNat_lt
  have ha := a.toNat_lt
  have hb := b.toNat_lt
  have hf := f.toNat_le
  rw [← UInt8.toNat_inj, UInt8.toNat_add, eq_decide_iff]
  omega

theorem difference_iff (a b r : UInt8) (f : Bool) :
    (r.toNat : Int) = a.toNat - b.toNat + 256 * (1 - f.toNat) ↔ r = a - b ∧ f = decide (b ≤ a) := by
  have hr := r.toNat_lt
  have ha := a.toNat_lt
  have hb := b.toNat_lt
  have hf := f.toNat_le
  rw [← UInt8.toNat_inj, UInt8.toNat_sub, eq_decide_iff, UInt8.le_iff_toNat_le]
  omega

theorem half_iff (a r : UInt8) (f : Bool) :
    2 * (r.toNat : Int) + f.toNat = a.toNat ↔ r = a / 2 ∧ f = (a % 2 == 1) := by
  have hf := f.toNat_le
  have hodd : (a % 2 == 1) = decide (a.toNat % 2 = 1) := by
    rw [Bool.eq_iff_iff, beq_iff_eq, decide_eq_true_iff, ← UInt8.toNat_inj, UInt8.toNat_mod]
    rfl
  rw [hodd, ← UInt8.toNat_inj, UInt8.toNat_div, eq_decide_iff]
  change _ ↔ r.toNat = a.toNat / 2 ∧ _
  omega

theorem double_iff (a r : UInt8) (f : Bool) :
    (r.toNat : Int) + 256 * f.toNat = 2 * a.toNat ↔ r = a + a ∧ f = decide (128 ≤ a) := by
  have hcarry : 256 ≤ a.toNat + a.toNat ↔ 128 ≤ a := by
    rw [UInt8.le_iff_toNat_le]
    change 256 ≤ a.toNat + a.toNat ↔ 128 ≤ a.toNat
    omega
  rw [Int.two_mul, sum_iff, decide_eq_decide.mpr hcarry]

namespace Machine

/-- Where `x` is the flag register, the flag wins. -/
def Solves (m next : Machine) (x : Nat) (equation : Int → Int → Prop) : Prop :=
  ∃ (r : UInt8) (f : Bool),
    (∀ (s : UInt8) (g : Bool), equation s.toNat g.toNat ↔ s = r ∧ g = f) ∧
    next.register flagRegister = (if f then 1 else 0) ∧
    (x ≠ flagRegister → next.register x = r) ∧
    ∀ k, k ≠ x → k ≠ flagRegister → next.register k = m.register k

def Stores (m next : Machine) (x : Nat) (v : UInt8) : Prop :=
  ∀ k, next.register k = if k = x then v else m.register k

theorem solves_of_iff (m : Machine) {x : Nat} (hx : x < 16) {equation : Int → Int → Prop}
    {r : UInt8} {f : Bool}
    (h : ∀ (s : UInt8) (g : Bool), equation s.toNat g.toNat ↔ s = r ∧ g = f) :
    m.Solves (advance ((m.setRegister x r).setFlag f)) x equation := by
  refine ⟨r, f, h, ?_, ?_, ?_⟩
  · rw [register_advance, setFlag, register_setRegister, if_pos ⟨rfl, by decide⟩]
  · intro hflag
    rw [register_advance, register_setFlag_of_ne hflag, register_setRegister, if_pos ⟨rfl, hx⟩]
  · intro k hk hflag
    rw [register_advance, register_setFlag_of_ne hflag, register_setRegister_of_ne hk]

theorem stores_setRegister (m : Machine) {x : Nat} (hx : x < 16) (v : UInt8) :
    m.Stores (advance (m.setRegister x v)) x v := by
  intro k
  rw [register_advance, register_setRegister]
  by_cases hk : x = k
  · rw [if_pos ⟨hk, hx⟩, if_pos hk.symm]
  · rw [if_neg fun h => hk h.1, if_neg (Ne.symm hk)]

/-- The result and the flag are the only solution of an equation over the integers, also where `x` and
`y` are the same or one of them is the flag register. -/
theorem arithmetic_is_exact (m : Machine) (random : UInt8) {x : Nat} (hx : x < 16) (y : Nat) :
    let a := m.register x
    let b := m.register y
    let after (i : Instruction) := m.execute random i
    m.Solves (after (.add x y)) x (fun r f => r + 256 * f = a.toNat + b.toNat) ∧
    m.Solves (after (.sub x y)) x (fun r f => r = a.toNat - b.toNat + 256 * (1 - f)) ∧
    m.Solves (after (.subFrom x y)) x (fun r f => r = b.toNat - a.toNat + 256 * (1 - f)) ∧
    m.Solves (after (.shiftRight x)) x (fun r f => 2 * r + f = a.toNat) ∧
    m.Solves (after (.shiftLeft x)) x (fun r f => r + 256 * f = 2 * a.toNat) ∧
    m.Stores (after (.copy x y)) x b ∧
    m.Stores (after (.or x y)) x (a ||| b) ∧
    m.Stores (after (.and x y)) x (a &&& b) ∧
    m.Stores (after (.xor x y)) x (a ^^^ b) ∧
    ∀ nn, m.Stores (after (.addByte x nn)) x (UInt8.ofNat ((a.toNat + nn.toNat) % 256)) := by
  intro a b after
  refine ⟨m.solves_of_iff hx (sum_iff a b), m.solves_of_iff hx (difference_iff a b),
    m.solves_of_iff hx (difference_iff b a), m.solves_of_iff hx (half_iff a),
    m.solves_of_iff hx (double_iff a), m.stores_setRegister hx b,
    m.stores_setRegister hx (a ||| b), m.stores_setRegister hx (a &&& b),
    m.stores_setRegister hx (a ^^^ b), fun nn => ?_⟩
  have hsum : UInt8.ofNat ((a.toNat + nn.toNat) % 256) = a + nn := by
    rw [← UInt8.toNat_inj, UInt8.toNat_ofNat', UInt8.toNat_add]
    exact Nat.mod_mod _ _
  rw [hsum]
  exact m.stores_setRegister hx (a + nn)

theorem arithmetic_is_exact_aliased :
    let m := ((fresh (.ofSeed 1)).setRegister flagRegister 0xF0).setRegister 1 0x20
    flagRegister < 16 ∧ (m.execute 0 (.add flagRegister 1)).register flagRegister = 1 := by
  intro m
  have hx : flagRegister < 16 := by decide
  have ha : m.register flagRegister = 0xF0 := by
    rw [register_setRegister, if_neg (by decide), register_setRegister, if_pos ⟨rfl, by decide⟩]
  have hb : m.register 1 = 0x20 := by
    rw [register_setRegister, if_pos ⟨rfl, by decide⟩]
  obtain ⟨⟨r, f, hsolution, hflag, -⟩, -⟩ := arithmetic_is_exact m 0 hx 1
  have hcarry : 0x10 = r ∧ true = f := by
    rw [← hsolution, ha, hb]
    decide
  rw [← hcarry.2] at hflag
  exact ⟨hx, hflag⟩

end Machine

end Chip8
