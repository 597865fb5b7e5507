import Llvmta.Library.ByteMemory

/-!
# Ranges of bytes

The bytes from an address on, in an address space that wraps around. Ranges that are placed
one after the other at a cursor stay disjoint as long as the cursor does not wrap around.
-/

/-- The bytes of an address space of 32 bits from an address on. -/
structure ByteRange where
  address : Word
  size : ℕ
  deriving DecidableEq, Repr

namespace ByteRange

variable {r r' : ByteRange} {l l' : List ByteRange} {b : Word} {lo mid hi : ℕ}

def Occupies (r : ByteRange) (b : Word) : Prop := (b - r.address).toNat < r.size

instance : Decidable (r.Occupies b) := inferInstanceAs (Decidable (_ < _))

def Disjoint (r r' : ByteRange) : Prop := ∀ b, r.Occupies b → ¬ r'.Occupies b

def Within (r : ByteRange) (lo hi : ℕ) : Prop :=
  lo ≤ r.address.toNat ∧ r.address.toNat + r.size ≤ hi

theorem Disjoint.symm (h : Disjoint r r') : Disjoint r' r := fun b hb hb' => h b hb' hb

theorem disjoint_of_empty (h : r.size = 0) : Disjoint r r' := by
  intro b hb
  rw [Occupies, h] at hb
  exact absurd hb (Nat.not_lt_zero _)

theorem occupies_address (h : r.size ≠ 0) : r.Occupies r.address := by
  rw [Occupies, BitVec.sub_self]
  exact Nat.pos_of_ne_zero h

theorem not_disjoint (h : r'.size ≠ 0) (hocc : r.Occupies r'.address) : ¬ Disjoint r r' :=
  fun hdisj => hdisj _ hocc (occupies_address h)

theorem Within.mono {lo' hi' : ℕ} (h : r.Within lo hi) (hlo : lo' ≤ lo) (hhi : hi ≤ hi') :
    r.Within lo' hi' := ⟨hlo.trans h.1, h.2.trans hhi⟩

theorem Occupies.bounds (hb : r.Occupies b) (h : r.Within lo hi) (hhi : hi ≤ 2 ^ 32) :
    lo ≤ b.toNat ∧ b.toNat < hi := by
  rw [Occupies, BitVec.toNat_sub] at hb
  have hlo := h.1
  have hend := h.2
  have hlt := b.isLt
  omega

/-- Ranges on two sides of an address are disjoint. -/
theorem disjoint_of_within (h : r.Within lo mid) (h' : r'.Within mid hi) (hmid : mid ≤ 2 ^ 32)
    (hhi : hi ≤ 2 ^ 32) : Disjoint r r' := by
  intro b hb hb'
  have hbelow := (hb.bounds h hmid).2
  have habove := (hb'.bounds h' hhi).1
  omega

/-- Ranges that are disjoint and lie between two addresses unless they are empty. -/
structure Placed (lo hi : ℕ) (l : List ByteRange) : Prop where
  within : ∀ r ∈ l, r.size ≠ 0 → r.Within lo hi
  disjoint : l.Pairwise Disjoint

theorem placed_nil : Placed lo hi [] where
  within _ h := nomatch h
  disjoint := .nil

theorem Placed.perm (h : Placed lo hi l) (hp : l.Perm l') : Placed lo hi l' where
  within r hr := h.within r (hp.mem_iff.mpr hr)
  disjoint := (hp.pairwise_iff Disjoint.symm).mp h.disjoint

theorem Placed.mono {lo' hi' : ℕ} (h : Placed lo hi l) (hlo : lo' ≤ lo) (hhi : hi ≤ hi') :
    Placed lo' hi' l := ⟨fun r hr hne => (h.within r hr hne).mono hlo hhi, h.disjoint⟩

theorem placed_of_empty (h : ∀ r ∈ l, r.size = 0) : Placed lo hi l where
  within r hr hne := absurd (h r hr) hne
  disjoint := List.pairwise_of_forall_mem_list fun r hr _ _ => disjoint_of_empty (h r hr)

/-- Two placements on two sides of an address. -/
theorem Placed.append (h : Placed lo mid l) (h' : Placed mid hi l') (hlo : lo ≤ mid)
    (hmid : mid ≤ hi) (hhi : hi ≤ 2 ^ 32) : Placed lo hi (l ++ l') where
  within r hr hne := by
    rcases List.mem_append.mp hr with hr | hr
    · exact (h.within r hr hne).mono le_rfl hmid
    · exact (h'.within r hr hne).mono hlo le_rfl
  disjoint := by
    apply List.pairwise_append.mpr ⟨h.disjoint, h'.disjoint, _⟩
    intro r hr r' hr'
    by_cases hne : r.size = 0
    · exact disjoint_of_empty hne
    · by_cases hne' : r'.size = 0
      · exact (disjoint_of_empty hne').symm
      · exact disjoint_of_within (h.within r hr hne) (h'.within r' hr' hne') (hmid.trans hhi) hhi

theorem placed_singleton (h : r.Within lo hi) : Placed lo hi [r] where
  within _ hr _ := List.mem_singleton.mp hr ▸ h
  disjoint := List.pairwise_singleton _ _

end ByteRange
