import Smysl.Cbor.Values

/-!
Every record decoder is steady: what it takes from a buffer does not depend on
what follows it, and the only thing that can change when more follows is that
it no longer finds the buffer short.
-/
namespace Smysl
open ByteString Cursor Cursor.Parser Dec

section
variable [Unicode]

instance (prev : Option Nat) : Steady (mapKey prev) := by
  unfold mapKey
  infer_instance

/-- All that a decoder does with the keys it knows is steady. -/
class SteadyArms {σ : Type} (arms : Nat → Arms σ) : Prop where
  steady : ∀ {start k arm}, arms start k = some arm → Steady arm

instance {σ : Type} (arms : Nat → Arms σ) [known : SteadyArms arms] (start : Nat)
    (st : Option Nat × σ × Extra) : Steady (readEntry (arms start) st) := by
  unfold readEntry
  refine @Steady.bind _ _ _ _ _ _ inferInstance fun k => ?_
  refine @Steady.bind _ _ _ _ _ _ inferInstance fun _ => ?_
  split
  · rename_i arm here
    have := known.steady here
    infer_instance
  · infer_instance

instance {σ : Type} (arms : Nat → Arms σ) [SteadyArms arms] (start : Nat) (init : σ) :
    Steady (readMap (arms start) init) := by
  unfold readMap
  infer_instance

instance {σ α : Type} (arms : Nat → Arms σ) [SteadyArms arms] (init : σ)
    (finish : σ → Extra → Option α) : Steady (decMap arms init finish) := by
  unfold decMap
  infer_instance

instance : SteadyArms sourceArms where
  steady here := by
    unfold sourceArms at here
    split at here <;> cases here <;> infer_instance

instance : Steady decSource := by
  unfold decSource
  infer_instance

instance : SteadyArms unitArms where
  steady here := by
    unfold unitArms at here
    split at here <;> cases here <;> infer_instance

instance : Steady decUnit := by
  unfold decUnit
  infer_instance

instance : SteadyArms attestationArms where
  steady here := by
    unfold attestationArms at here
    split at here <;> cases here <;> infer_instance

instance : Steady decAttestation := by
  unfold decAttestation
  infer_instance

instance : SteadyArms relationArms where
  steady here := by
    unfold relationArms at here
    split at here <;> cases here <;> infer_instance

instance : Steady decRelation := by
  unfold decRelation
  infer_instance

instance : SteadyArms threadArms where
  steady here := by
    unfold threadArms at here
    split at here <;> cases here <;> infer_instance

instance : Steady decThread := by
  unfold decThread
  infer_instance

instance : SteadyArms granularityArms where
  steady here := by
    unfold granularityArms at here
    split at here <;> cases here <;> infer_instance

instance : Steady decGranularity := by
  unfold decGranularity
  infer_instance

instance : SteadyArms viewArms where
  steady here := by
    unfold viewArms at here
    split at here <;> cases here <;> infer_instance

instance : Steady decView := by
  unfold decView
  infer_instance

instance : SteadyArms contentionArms where
  steady here := by
    unfold contentionArms at here
    split at here <;> cases here <;> infer_instance

instance : Steady decContention := by
  unfold decContention
  infer_instance

instance : SteadyArms packinfoArms where
  steady here := by
    unfold packinfoArms at here
    split at here <;> cases here <;> infer_instance

instance : Steady decPackinfo := by
  unfold decPackinfo
  infer_instance

instance : SteadyArms schemaDeclArms where
  steady here := by
    unfold schemaDeclArms at here
    split at here <;> cases here <;> infer_instance

instance : Steady decSchemaDecl := by
  unfold decSchemaDecl
  infer_instance

instance : SteadyArms labelBindingArms where
  steady here := by
    unfold labelBindingArms at here
    split at here <;> cases here <;> infer_instance

instance : Steady decLabelBinding := by
  unfold decLabelBinding
  infer_instance

instance : SteadyArms withdrawalArms where
  steady here := by
    unfold withdrawalArms at here
    split at here <;> cases here <;> infer_instance

instance : Steady decWithdrawal := by
  unfold decWithdrawal
  infer_instance

instance : SteadyArms resolutionArms where
  steady here := by
    unfold resolutionArms at here
    split at here <;> cases here <;> infer_instance

instance : Steady decResolution := by
  unfold decResolution
  infer_instance

instance : SteadyArms commitArms where
  steady here := by
    unfold commitArms at here
    split at here <;> cases here <;> infer_instance

instance : Steady decCommit := by
  unfold decCommit
  infer_instance

instance : SteadyArms partEntryArms where
  steady here := by
    unfold partEntryArms at here
    split at here <;> cases here <;> infer_instance

instance : Steady decPartEntry := by
  unfold decPartEntry
  infer_instance

instance : SteadyArms manifestArms where
  steady here := by
    unfold manifestArms at here
    split at here <;> cases here <;> infer_instance

instance : Steady decManifest := by
  unfold decManifest
  infer_instance

instance : SteadyArms partTextArms where
  steady here := by
    unfold partTextArms at here
    split at here <;> cases here <;> infer_instance

instance : Steady decPartText := by
  unfold decPartText
  infer_instance

instance : SteadyArms partReadingArms where
  steady here := by
    unfold partReadingArms at here
    split at here <;> cases here <;> infer_instance

instance : Steady decPartReading := by
  unfold decPartReading
  infer_instance

instance : SteadyArms datingArms where
  steady here := by
    unfold datingArms at here
    split at here <;> cases here <;> infer_instance

instance : Steady decDating := by
  unfold decDating
  infer_instance

instance : SteadyArms redactionArms where
  steady here := by
    unfold redactionArms at here
    split at here <;> cases here <;> infer_instance

instance : Steady decRedaction := by
  unfold decRedaction
  infer_instance

instance (code : UInt64) : Steady (decPayload code) := by
  unfold decPayload
  split <;> infer_instance

instance : Steady decEnvelope := by
  unfold decEnvelope
  infer_instance

/-- A record is read from the bytes it is said to take, and nothing else. -/
theorem from_cbor_ok {bytes : Bytes} {r : Record} {n : Nat}
    (run : fromCbor bytes = .ok (r, n)) : ∃ d, decEnvelope ⟨0, bytes⟩ = .ok (r, d) ∧
      bytes = bytes.take n ++ d.rest ∧ n ≤ bytes.length := by
  rw [fromCbor] at run
  split at run
  · rename_i r d decoded
    cases run
    obtain ⟨⟨raw, eq, pos⟩, _⟩ := Steady.ok decoded
    simp only [Nat.zero_add] at pos
    dsimp only at eq
    refine ⟨d, decoded, ?_, ?_⟩
    · rw [pos, eq, List.take_left]
    · rw [pos, eq, List.length_append]
      omega
  · cases run

end
end Smysl
