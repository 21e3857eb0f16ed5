/-
# Errors

An operation that can fail fails with an `Error`: a kind, and for most kinds a detail that names
the cause.  The wording of every cause is fixed here, so that two operations that fail for one
cause say the same.

| kind | cause |
| --- | --- |
| `invalidArgument` | a request that no state could serve |
| `unsupported` | a media type or an input that the library does not handle |
| `invalidData` | bytes that are no Annex B stream, or no NAL unit |
| `storage` | the storage below refused a call |
| `needMoreData` | the answer depends on bytes that have not arrived |
| `endOfData` | fewer bytes or bits are left than were asked for |
| `capacity` | a reserve of a buffer is used up |

A sum or product that leaves the width it is computed in is no error.  Where it is checked, it is a
fault (`Halt`), after which the program does not go on.
-/

namespace AnnexB

/-- Why storage refused a call: the operating system said no, or the storage itself did, with a
text of its own. -/
inductive StorageFailure where
  | system
  | custom (text : String)
  deriving DecidableEq, Repr, Inhabited

/-- Why an operation failed. -/
inductive Error where
  | invalidArgument (detail : String)
  | unsupported (detail : String)
  | invalidData (detail : String)
  | storage (failure : StorageFailure)
  | needMoreData
  | endOfData
  | capacity (detail : String)
  deriving DecidableEq, Repr, Inhabited

namespace Error

/-- The text shown for an error: what kind it is, then its detail. -/
def message : Error → String
  | invalidArgument detail => "无效参数: " ++ detail
  | unsupported detail => "不支持的操作: " ++ detail
  | invalidData detail => "无效数据: " ++ detail
  | storage .system => "I/O 错误"
  | storage (.custom text) => "I/O 错误: " ++ text
  | needMoreData => "数据不足, 需要更多输入"
  | endOfData => "已到达流末尾"
  | capacity detail => "预留空间不足: " ++ detail

/-- Two reserves that do not fit into a buffer of `size` bytes together. -/
def reservesTooLarge (front back size : Nat) : Error :=
  invalidArgument s!"预留空间 {front}+{back} 超过缓冲区大小 {size}"

/-- `length` bytes put in front of a buffer whose front reserve is smaller. -/
def frontReserveTooSmall (length front : Nat) : Error :=
  capacity s!"prepend {length} 字节, 前置预留仅 {front} 字节"

/-- `length` bytes taken over from a back reserve that is smaller. -/
def backReserveTooSmall (length back : Nat) : Error :=
  capacity s!"consume_postbuffer {length} 字节, 后置预留仅 {back} 字节"

/-- A field of `width` bits asked for from a reader of at most `limit` bits. -/
def fieldTooWide (reader : String) (width limit : Nat) : Error :=
  invalidArgument s!"{reader}: n={width} 超过 {limit} 位"

/-- A byte operation off a byte boundary. -/
def unaligned (operation : String) : Error :=
  invalidArgument (operation ++ " 需要字节对齐")

/-- A transfer into a writer that stands inside a byte. -/
def writerUnaligned : Error :=
  invalidArgument "transfer_from: 写入器未字节对齐"

/-- A transfer from a reader that stands inside a byte. -/
def readerUnaligned : Error :=
  invalidArgument "transfer_from: 读取器剩余位数未字节对齐"

/-- A media type name that is none of the known ones. -/
def unknownMediaType (name : String) : Error :=
  unsupported ("媒体类型: " ++ name)

/-- A buffer that should begin with a start code and does not. -/
def noLeadingStartCode : Error :=
  invalidData "Annex B: 缓冲区开头缺少起始码"

/-- An input of at least one unit's length without any start code. -/
def noStartCode : Error :=
  invalidData "Annex B: 输入中没有起始码"

/-- An input of `size` bytes that holds no NAL unit. -/
def noNalUnit (size : Nat) : Error :=
  invalidData s!"Annex B: {size} 字节的输入中没有 NAL 单元"

/-- A NAL unit without its header byte. -/
def emptyNalUnit : Error :=
  invalidData "H.264: NAL 单元数据为空"

/-- A read from a source whose storage could not be used. -/
def noStorage : Error :=
  invalidArgument "媒体源没有可用的 I/O"

/-- Frame dimensions that give a frame of no bytes. -/
def emptyFrame (width height : UInt32) : Error :=
  invalidArgument s!"无效的 YUV 尺寸: {width}x{height}"

/-- Raw frames in storage that does not know its size. -/
def unknownSize : Error :=
  unsupported "YUV 源需要已知大小的输入"

end Error

/-- How a request ends without an answer: in an error, which its caller can handle, or in a fault,
after which the program does not go on. -/
inductive Halt where
  | error (e : Error)
  | fault
  deriving DecidableEq, Repr, Inhabited

/-- A number as it was computed in a word, if that is the exact number, and else a fault. -/
def Halt.checked {α : Type} (value : α → Int) (computed : α) (exact : Int) : Except Halt α :=
  if value computed = exact then .ok computed else .error .fault

theorem Halt.checked_of_iff {α : Type} {value : α → Int} {computed : α} {exact : Int} {fits : Prop}
    [Decidable fits] (h : value computed = exact ↔ fits) :
    checked value computed exact = if fits then .ok computed else .error .fault := by
  simp only [checked, h]

end AnnexB
