import Smysl.Core.Types.Annex

/-!
The derived orders of the lifecycle records, field by field, as a set of them
is iterated.
-/
namespace Smysl
open ByteString

namespace Withdrawal

def rank (w : Withdrawal) : Uid ×ₗ AgentId ×ₗ Hlc ×ₗ List Uid ×ₗ List (ℕ ×ₗ Bytes) :=
  toLex (w.relation, toLex (w.agent, toLex (w.ts, toLex (w.reason.toList, w.extra.rank))))

theorem rank_injective : Function.Injective rank := by
  rintro ⟨relation, agent, ts, reason, extra⟩ ⟨relation', agent', ts', reason', extra'⟩ same
  simp only [rank, EmbeddingLike.apply_eq_iff_eq, Prod.mk.injEq, to_list_injective.eq_iff,
    Extra.rank_injective.eq_iff] at same
  simp [same]

instance : LinearOrder Withdrawal := LinearOrder.lift' rank rank_injective

end Withdrawal

namespace ResolutionTarget

/-- A contention is below a relation. -/
def rank : ResolutionTarget → ContentionId ⊕ₗ Uid
  | contention id => toLex (Sum.inl id)
  | relation rid => toLex (Sum.inr rid)

theorem rank_injective : Function.Injective rank := by
  rintro (a | a) (b | b) same <;> simp_all [rank]

end ResolutionTarget

namespace Resolution

def rank (r : Resolution) :
    (ContentionId ⊕ₗ Uid) ×ₗ AgentId ×ₗ Hlc ×ₗ List Uid ×ₗ List (ℕ ×ₗ Bytes) :=
  toLex (r.target.rank, toLex (r.agent, toLex (r.ts, toLex (r.note.toList, r.extra.rank))))

theorem rank_injective : Function.Injective rank := by
  rintro ⟨target, agent, ts, note, extra⟩ ⟨target', agent', ts', note', extra'⟩ same
  simp only [rank, EmbeddingLike.apply_eq_iff_eq, Prod.mk.injEq, to_list_injective.eq_iff,
    Extra.rank_injective.eq_iff, ResolutionTarget.rank_injective.eq_iff] at same
  simp [same]

instance : LinearOrder Resolution := LinearOrder.lift' rank rank_injective

end Resolution

namespace Commit

def rank (c : Commit) :
    Uid ×ₗ ℕ ×ₗ AgentId ×ₗ Hlc ×ₗ List Uid ×ₗ List (ℕ ×ₗ Bytes) :=
  toLex (c.unit, toLex ((asU8 c.level).toNat, toLex (c.agent, toLex (c.ts,
    toLex (c.note.toList, c.extra.rank)))))

theorem rank_injective : Function.Injective rank := by
  rintro ⟨unit, level, agent, ts, note, extra⟩ ⟨unit', level', agent', ts', note', extra'⟩ same
  simp only [rank, EmbeddingLike.apply_eq_iff_eq, Prod.mk.injEq, to_list_injective.eq_iff,
    Extra.rank_injective.eq_iff, UInt8.toNat_inj, as_u8_injective.eq_iff] at same
  simp [same]

instance : LinearOrder Commit := LinearOrder.lift' rank rank_injective

end Commit
end Smysl
