import Ehdb.Proof.Core.Names
import Ehdb.Reference.SharedSegments

/-! An append that is not refused cuts the object to the length that the caller gives and puts the
new bytes after it, whatever the sidecar said before. -/

namespace Ehdb.Proof.Reference

open ProofKit Ehdb.Reference Ehdb.Core Proof.Core List
open SharedDir (object objectLen readMeta readObjectPrefix renameTemp setObject writeTemp)

variable {H : Type} {K : Hashing H} {dir : SharedDir H} {shard segmentId : Nat}

section Files

variable {bytes : Bytes}

end Files

variable {Q : Unit → SharedDir H → Prop}

def resumed (K : Hashing H) (dir : SharedDir H) (shard segmentId committedLen : Nat) : H :=
  (((dir.readMeta shard segmentId).filter (·.byteLen = committedLen)).bind (·.hasherState)).getD
    (K.write K.withSeed (((dir.object shard segmentId).getD []).take committedLen))

variable {committedLen : Nat}

end Ehdb.Proof.Reference
