import QLog.Foundations.ByteMemory

/-!
# Handles and result codes shared by the buffers

The vocabulary of `log_buffer_defs.hpp`. An address is an offset into the block array the buffer
owns.
-/

namespace QLog

/-- `enum_buffer_result_code`. -/
inductive ResultCode
  | success
  | errEmptyLogBuffer
  | errNotEnoughSpace
  | errWaitAndRetry
  | errDataNotContiguous
  | errAllocSizeInvalid
  | errBufferNotInited
  | errIoFailureDrop
  deriving DecidableEq, Repr

/-- `log_buffer_write_handle`. -/
structure WriteHandle where
  dataAddr : ℕ
  result : ResultCode
  lowSpaceFlag : Bool
  deriving DecidableEq, Repr

/-- `log_buffer_read_handle`. -/
structure ReadHandle where
  dataAddr : ℕ
  result : ResultCode
  dataSize : ℕ
  deriving DecidableEq, Repr

end QLog
