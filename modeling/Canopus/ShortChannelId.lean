import Canopus.Wire

/-! The text form of short channel ids (`channel_id.rs`). Strings are read as characters: a character that is not an
    ASCII digit has no byte that is one, and a split at `x` takes place between characters. -/

namespace Canopus

/-- One step of `str::parse::<u64>`. -/
def pushDigit (acc : UInt64) (c : Char) : Option UInt64 := do
  let scaled ← checkedMul acc 10
  checkedAdd scaled (UInt64.ofNat (c.toNat - '0'.toNat))

/-- `str::parse::<u64>` on digits: the only error left is the overflow. -/
def parseU64 (s : List Char) : Option UInt64 := s.foldlM pushDigit 0

def parseScidPart (s : List Char) (max : UInt64) : Option UInt64 :=
  if s.isEmpty || !s.all (·.isDigit) then none
  else do
    let value ← parseU64 s
    if value ≤ max then some value else none

def parseShortChannelId (s : String) : Option UInt64 := do
  let parts := s.toList.splitOn 'x'
  let block ← parseScidPart (← parts[0]?) 0x00ffffff
  let txindex ← parseScidPart (← parts[1]?) 0x00ffffff
  let outnum ← parseScidPart (← parts[2]?) 0x0000ffff
  if parts[3]?.isSome then none
  else some ((block <<< 40) ||| (txindex <<< 16) ||| outnum)

def formatShortChannelId (scid : UInt64) : String :=
  let block := scid >>> 40
  let txindex := (scid >>> 16) &&& 0x00ffffff
  let outnum := scid &&& 0x0000ffff
  s!"{block}x{txindex}x{outnum}"

end Canopus
