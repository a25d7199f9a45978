import DomiconExec.P2p.Peer

namespace Eth

def protocolName : String :=
  "eth"

def protocolLengths : Nat → Option UInt64
  | 68 => some 17
  | 67 => some 17
  | _  => none

def resFileDatasMsg : UInt64 :=
  0x11

def reqFileDatasMsg : UInt64 :=
  0x12

def fileDataMsg : UInt64 :=
  0x0c

def pooledFileDatasMsg : UInt64 :=
  0x0b

def getPooledFileDatasMsg : UInt64 :=
  0x0d

def newPooledFileDataHashesMsg : UInt64 :=
  0x0e

inductive MsgHandler
  | handleFileDatas
  | handleResFileDatas
  | handleReqFileDatas
  | handleGetPooledFileDatas
  | handleNewPooledFileDataHashes67
  | handleNewPooledFileDataHashes68
  | handlePooledFileDatas
deriving DecidableEq

def eth67 : List (UInt64 × MsgHandler) := [
  (fileDataMsg, .handleFileDatas),
  (resFileDatasMsg, .handleResFileDatas),
  (reqFileDatasMsg, .handleReqFileDatas),
  (getPooledFileDatasMsg, .handleGetPooledFileDatas),
  (newPooledFileDataHashesMsg, .handleNewPooledFileDataHashes67),
  (pooledFileDatasMsg, .handlePooledFileDatas)
]

def eth68 : List (UInt64 × MsgHandler) := [
  (fileDataMsg, .handleFileDatas),
  (reqFileDatasMsg, .handleReqFileDatas),
  (resFileDatasMsg, .handleResFileDatas),
  (getPooledFileDatasMsg, .handleGetPooledFileDatas),
  (newPooledFileDataHashesMsg, .handleNewPooledFileDataHashes68),
  (pooledFileDatasMsg, .handlePooledFileDatas)
]

def handler (version : Nat) (code : UInt64) : Option MsgHandler :=
  (if version ≥ 68 then eth68 else eth67).lookup code

end Eth
