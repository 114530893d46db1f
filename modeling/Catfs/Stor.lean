import Catfs.Types

/-! # The store interface (`src/stor/stor.h`)

A store is a state machine over a state `σ` of its own: an operation may change the state and may throw.
`head_file` fills in a response that its caller declared, so it takes that response. -/

namespace Catfs

structure HeadFileReq where
  objKey : Str

structure HeadFileResp where
  exist : Bool
  obj : ObjInfo

/-- `HeadFileResp resp;` -/
def HeadFileResp.uninit (g : Garbage) : HeadFileResp := { exist := g.exist, obj := ObjInfo.uninit g }

structure ListObjectsReq where
  delimiter : Str
  pre : Str
  max : Nat
  marker : Str

structure ListObjectsResp where
  isTrunc : Bool
  nextMarker : Str
  objs : List ObjInfo
  commonPrefixes : List Str

/-- `buf` is `none` when the pointer is null; otherwise its first `size` bytes are the body. -/
structure PutFileReq where
  objKey : Str
  buf : Option (List Byte)
  size : Nat
  metaData : List (Str × Str)

structure DeleteFileReq where
  objKey : Str

structure ReadFileReq where
  objKey : Str
  off : Nat
  size : Nat

structure ReadFileResp where
  dst : List Byte
  bytes : Nat

structure MInitReq where
  objKey : Str

structure MInitResp where
  partSize : Nat
  uploadId : Str

/-- The first `size` bytes of `data` are the part. -/
structure MPutReq where
  objKey : Str
  uploadId : Str
  partNum : Nat
  data : List Byte
  size : Nat

structure MFinishReq where
  objKey : Str
  uploadId : Str

/-- The operations that send data. -/
structure UploadStor (σ : Type) where
  putFile : PutFileReq → EStateM Err σ Unit
  minit : MInitReq → EStateM Err σ MInitResp
  mput : MPutReq → EStateM Err σ Unit
  mfinish : MFinishReq → EStateM Err σ Unit

/-- `class Stor` -/
structure Stor (σ : Type) extends UploadStor σ where
  headFile : HeadFileReq → HeadFileResp → EStateM Err σ HeadFileResp
  listObjects : ListObjectsReq → EStateM Err σ ListObjectsResp
  readFile : ReadFileReq → EStateM Err σ ReadFileResp
  deleteFile : DeleteFileReq → EStateM Err σ Unit

end Catfs
