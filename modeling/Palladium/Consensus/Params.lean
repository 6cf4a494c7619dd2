import Palladium.Arith.Compact

/-! # Consensus parameters of the three networks

The fields are those of `Consensus::Params` that the modelled rules read, with the
values of `CMainParams`, `CTestNetParams` and `CRegTestParams`.
-/

namespace Palladium

abbrev Uint256 := BitVec 256

instance : LawfulBEq Uint256 := inferInstance

def uintToArith256 (a : Uint256) : ArithUint256 := a

/-- Parameters that influence chain consensus. -/
structure Params where
  hashGenesisBlock : Uint256
  nSubsidyHalvingInterval : ℕ
  nResilienceForkHeight : ℕ
  TaprootHeight : ℕ
  BIP16Exception : Uint256
  BIP34Height : ℕ
  BIP34Hash : Uint256
  BIP65Height : ℕ
  BIP66Height : ℕ
  CSVHeight : ℕ
  SegwitHeight : ℕ
  powLimit : Uint256
  fPowAllowMinDifficultyBlocks : Bool
  fPowNoRetargeting : Bool
  nPowTargetSpacing : ℕ
  nPowTargetSpacingV2 : ℕ
  nPowTargetTimespan : ℕ
  deriving DecidableEq, Repr

def Params.difficultyAdjustmentInterval (params : Params) : ℕ :=
  params.nPowTargetTimespan / params.nPowTargetSpacing

inductive Network | main | test | regtest
  deriving DecidableEq, Repr

def Network.consensus : Network → Params
  | main =>
    { hashGenesisBlock := 0x000000000019d6689c085ae165831e934ff763ae46a2a6c172b3f1b60a8ce26f
      nSubsidyHalvingInterval := 210000
      nResilienceForkHeight := 340000
      TaprootHeight := 405000
      BIP16Exception := 0x000000000019d6689c085ae165831e934ff763ae46a2a6c172b3f1b60a8ce26f
      BIP34Height := 29000
      BIP34Hash := 0
      BIP65Height := 29000
      BIP66Height := 29000
      CSVHeight := 29000
      SegwitHeight := 29000
      powLimit := 0x00000000ffffffffffffffffffffffffffffffffffffffffffffffffffffffff
      fPowAllowMinDifficultyBlocks := false
      fPowNoRetargeting := false
      nPowTargetSpacing := 10 * 60
      nPowTargetSpacingV2 := 2 * 60
      nPowTargetTimespan := 14 * 24 * 60 * 60 }
  | test =>
    { hashGenesisBlock := 0x000000000933ea01ad0ee984209779baaec3ced90fa3f408719526f8d77f4943
      nSubsidyHalvingInterval := 210000
      nResilienceForkHeight := 2000
      TaprootHeight := 2500
      BIP16Exception := 0
      BIP34Height := 1700
      BIP34Hash := 0
      BIP65Height := 0
      BIP66Height := 0
      CSVHeight := 0
      SegwitHeight := 0
      powLimit := 0x00000000ffffffffffffffffffffffffffffffffffffffffffffffffffffffff
      fPowAllowMinDifficultyBlocks := true
      fPowNoRetargeting := false
      nPowTargetSpacing := 2 * 60
      nPowTargetSpacingV2 := 2 * 60
      nPowTargetTimespan := 14 * 24 * 60 * 60 }
  | regtest =>
    { hashGenesisBlock := 0x0f9188f13cb7b2c71f2a335e3a4fc328bf5beb436012afca590b1a11466e2206
      nSubsidyHalvingInterval := 150
      nResilienceForkHeight := 200
      TaprootHeight := 0
      BIP16Exception := 0
      BIP34Height := 0
      BIP34Hash := 0
      BIP65Height := 0
      BIP66Height := 0
      CSVHeight := 0
      SegwitHeight := 0
      powLimit := 0x7fffffffffffffffffffffffffffffffffffffffffffffffffffffffffffffff
      fPowAllowMinDifficultyBlocks := true
      fPowNoRetargeting := true
      nPowTargetSpacing := 2 * 60
      nPowTargetSpacingV2 := 2 * 60
      nPowTargetTimespan := 24 * 60 * 60 }

end Palladium
