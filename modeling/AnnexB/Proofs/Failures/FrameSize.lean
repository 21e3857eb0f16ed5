/-
# Frames whose size does not fit

A frame of `w` times `h` pixels has `3 * w * h / 2` bytes.  The product is made in 64 bits, and `w` and
`h` have 32 bits each, so it leaves them for frames of more than about 2^64 / 3 pixels.

| `3 * w * h` | size of a frame | frames of a source | source shorter than a frame |
| --- | --- | --- | --- |
| below 2^64 | as it is | as many as its input holds | never good |
| from 2^64 on | none, the program faults | there is no source | there is no source |

The product of `w` and `h` alone fits (`frameSize_eq`).  So the fault is that of the second product,
and an input of any length meets it (`frameSize_exact_iff`).
-/

import AnnexB.Proofs.Frames

namespace AnnexB

/-- The number of bytes of a frame. -/
def YuvConfig.exactSize (config : YuvConfig) : Nat :=
  3 * config.width.toNat * config.height.toNat / 2

/-- The product whose half is the size of a frame fits in 64 bits. -/
def YuvConfig.Fits (config : YuvConfig) : Prop :=
  3 * config.width.toNat * config.height.toNat < UInt64.size

instance (config : YuvConfig) : Decidable config.Fits := inferInstanceAs (Decidable (_ < _))

/-- A product of words is as it is computed, or a fault where it leaves them. -/
theorem Halt.checked_mul (a b : UInt64) :
    Halt.checked (fun word : UInt64 => (word.toNat : Int)) (a * b) (a.toNat * b.toNat) =
      if a.toNat * b.toNat < UInt64.size then .ok (a * b) else .error .fault := by
  refine checked_of_iff ?_
  rw [UInt64.toNat_mul, ← Int.natCast_mul, Int.natCast_inj]
  exact Nat.mod_eq_iff_lt (by decide)

namespace YuvConfig

variable {config : YuvConfig}

/-- Two numbers of 32 bits have a product of 64. -/
theorem pixels_lt (config : YuvConfig) :
    config.width.toUInt64.toNat * config.height.toUInt64.toNat < UInt64.size :=
  Nat.mul_lt_mul'' config.width.toNat_lt config.height.toNat_lt

theorem exactSize_lt (h : config.Fits) : config.exactSize < UInt64.size :=
  Nat.lt_of_le_of_lt (Nat.div_le_self ..) h

/-- **The size of a frame is that of the exact product, or a fault.** -/
theorem frameSize_eq (config : YuvConfig) :
    config.frameSize =
      if config.Fits then .ok (UInt64.ofNat config.exactSize) else .error .fault := by
  set pixels := config.width.toUInt64 * config.height.toUInt64 with hpixels
  have hproduct : pixels.toNat * (3 : UInt64).toNat =
      3 * config.width.toNat * config.height.toNat := by
    rw [hpixels, UInt64.toNat_mul, Nat.mod_eq_of_lt config.pixels_lt, Nat.mul_comm, ← Nat.mul_assoc]
    rfl
  have hchecked : Halt.checked (fun word : UInt64 => (word.toNat : Int)) (pixels * 3)
      (pixels.toNat * (3 : UInt64).toNat) =
        if config.Fits then .ok (pixels * 3) else .error .fault := by
    rw [Halt.checked_mul, hproduct]
    rfl
  -- the first product fits, so the second one decides
  rw [frameSize, Halt.checked_mul, if_pos config.pixels_lt]
  refine (congrArg (· >>= fun product => pure (product / 2)) hchecked).trans ?_
  by_cases hfits : config.Fits
  · have hhalf : pixels * 3 / 2 = UInt64.ofNat config.exactSize := by
      refine UInt64.toNat_inj.1 ?_
      rw [UInt64.toNat_div, UInt64.toNat_mul, hproduct, Nat.mod_eq_of_lt hfits,
        UInt64.toNat_ofNat_of_lt' (exactSize_lt hfits)]
      rfl
    rw [if_pos hfits, if_pos hfits, ← hhalf]
    rfl
  · rw [if_neg hfits, if_neg hfits]
    rfl

end YuvConfig

namespace YuvSource

variable {σ : Type} [Storage σ] {c : Channel σ} {config : YuvConfig} {size total : Nat}

/-- A source is never good if and only if it counts no frame. -/
theorem never_good_iff (c : Channel σ) (config : YuvConfig) (size : Nat) :
    (∀ calls, MediaSource.isGood (MediaSource.after (ofFrames c config size) calls) = false) ↔
      (ofFrames c config size).frameCount = 0 := by
  constructor
  · intro hnever
    have hstart : (ofFrames c config size).isGood = false := hnever 0
    rw [isGood_ofFrames] at hstart
    simpa using hstart
  · intro hnone calls
    rw [(spent_ofFrames hnone).after, (spent_ofFrames hnone).isGood]

/-- **The size of a frame, and what hangs on it, is right if and only if the product fits** in 64
bits.  Any storage of known size is given to a source.  Where the product fits, the source counts the
frames that the storage holds, and is never good just if there is none; so it is never good where the
storage is shorter than a frame.  Where the product does not fit, the program faults, and there is no
source. -/
theorem frameSize_exact_iff (htotal : c.size = some total) (config : YuvConfig) :
    (config.frameSize.map UInt64.toNat = .ok config.exactSize ↔ config.Fits) ∧
      (¬config.Fits → config.frameSize = .error .fault ∧ ofChannel c config = .error .fault) ∧
      (config.Fits → ∃ source, ofChannel c config = .ok source ∧
        let neverGood := ∀ calls, MediaSource.isGood (MediaSource.after source calls) = false
        source.frameCount = total / config.exactSize ∧ (neverGood ↔ source.frameCount = 0) ∧
          (total < config.exactSize → neverGood)) := by
  have hframe := config.frameSize_eq
  by_cases hfits : config.Fits
  · rw [if_pos hfits] at hframe
    have hsize : (UInt64.ofNat config.exactSize).toNat = config.exactSize :=
      UInt64.toNat_ofNat_of_lt' (YuvConfig.exactSize_lt hfits)
    refine ⟨iff_of_true ?_ hfits, fun hwide => absurd hfits hwide, fun _ => ?_⟩
    · rw [hframe, Except.map, hsize]
    · refine ⟨_, ofChannel_of_frameSize hframe c, ?_⟩
      rw [hsize]
      have hcount : (ofFrames c config config.exactSize).frameCount = total / config.exactSize :=
        frameCount_ofFrames htotal
      refine ⟨hcount, never_good_iff c config _, fun hshort => ?_⟩
      rw [never_good_iff, hcount, Nat.div_eq_of_lt hshort]
  · rw [if_neg hfits] at hframe
    refine ⟨iff_of_false ?_ hfits, fun _ => ⟨hframe, ofChannel_of_halt hframe c⟩, fun h =>
      absurd h hfits⟩
    rw [hframe]
    nofun

/-- A frame of more than 2^63 bytes, and one of 6.  An input of 13 bytes holds no frame of the one, and
the program faults; it holds two frames of the other, and 5 bytes hold none. -/
theorem frameSize_exact_iff_fault :
    let large : YuvConfig := { width := 2154230017, height := 2854344542, mode := .untimed }
    let small : YuvConfig := { width := 2, height := 2, mode := .untimed }
    let c := fun n => Channel.ofStorage (MemoryStore.ofList (List.replicate n 0))
    (c 13).size = some 13 ∧ ¬large.Fits ∧ large.exactSize = 9223372036854775821 ∧
      large.frameSize = .error .fault ∧ ofChannel (c 13) large = .error .fault ∧
      small.Fits ∧ small.exactSize = 6 ∧
      (∃ source, ofChannel (c 13) small = .ok source ∧ source.frameCount = 2) ∧
      (c 5).size = some 5 ∧ ∃ source, ofChannel (c 5) small = .ok source ∧
        ∀ calls, MediaSource.isGood (MediaSource.after source calls) = false := by
  intro large small c
  have hlarge : ¬large.Fits := by decide
  have hsmall : small.Fits := by decide
  have hexact : small.exactSize = 6 := by decide
  have hthirteen : (c 13).size = some 13 := rfl
  have hfive : (c 5).size = some 5 := rfl
  obtain ⟨-, hfault, -⟩ := frameSize_exact_iff hthirteen large
  obtain ⟨-, -, htwo⟩ := frameSize_exact_iff hthirteen small
  obtain ⟨-, -, hnone⟩ := frameSize_exact_iff hfive small
  obtain ⟨source, hsource, hcount, -⟩ := htwo hsmall
  obtain ⟨source', hsource', -, -, hnever⟩ := hnone hsmall
  rw [hexact] at hcount hnever
  exact ⟨hthirteen, hlarge, by decide, (hfault hlarge).1, (hfault hlarge).2, hsmall, hexact,
    ⟨source, hsource, hcount⟩, hfive, source', hsource', hnever (by decide)⟩

end YuvSource

end AnnexB
