/-!
Left folds over byte arrays.  `foldBytes_eq_foldl` lets statements about them speak
of the list of bytes.
-/

namespace TapeLang

variable {State : Type}

@[specialize]
def foldBytesFrom (feed : State → UInt8 → State) (bytes : ByteArray) (index : Nat)
    (state : State) : State :=
  if inRange : index < bytes.size then
    foldBytesFrom feed bytes (index + 1) (feed state bytes[index])
  else
    state
termination_by bytes.size - index

@[inline]
def foldBytes (feed : State → UInt8 → State) (start : State) (bytes : ByteArray) : State :=
  foldBytesFrom feed bytes 0 start

theorem foldBytesFrom_eq_foldl (feed : State → UInt8 → State) (bytes : ByteArray)
    (index : Nat) (state : State) :
    foldBytesFrom feed bytes index state = (bytes.data.toList.drop index).foldl feed state := by
  fun_induction foldBytesFrom feed bytes index state with
  | case1 index state inRange inductionHypothesis =>
      have inList : index < bytes.data.toList.length := by simpa using inRange
      rw [inductionHypothesis, List.drop_eq_getElem_cons inList]
      rfl
  | case2 index state outside =>
      have : bytes.data.toList.length ≤ index := by simpa using outside
      simp [List.drop_eq_nil_of_le this]

theorem foldBytes_eq_foldl (feed : State → UInt8 → State) (start : State) (bytes : ByteArray) :
    foldBytes feed start bytes = bytes.data.toList.foldl feed start := by
  simp [foldBytes, foldBytesFrom_eq_foldl]

end TapeLang
