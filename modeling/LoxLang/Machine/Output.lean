/-! Where `print` writes: a row of bytes that may have an end. -/
namespace LoxLang

structure Output where
  bytes : ByteArray
  /-- No limit when absent. -/
  capacity : Option Nat

namespace Output

def empty (capacity : Option Nat) : Output := ⟨.empty, capacity⟩

/-- Keeps what fits. -/
def write (o : Output) (text : String) : Output :=
  match o.capacity with
  | none => { o with bytes := o.bytes ++ text.toUTF8 }
  | some n => { o with bytes := o.bytes ++ text.toUTF8.extract 0 (n - o.bytes.size) }

def fits (o : Output) (text : String) : Bool :=
  o.capacity.all (o.bytes.size + text.utf8ByteSize ≤ ·)

/-- The bytes from `start` on as text; a character cut off at the end shows as U+FFFD. -/
def textFrom (o : Output) (start : Nat) : String :=
  let bytes := o.bytes.extract start o.bytes.size
  let whole (n : Nat) : Option String := String.fromUTF8? (bytes.extract 0 (bytes.size - n))
  match whole 0 with
  | some s => s
  | none => ((whole 1 <|> whole 2 <|> whole 3).getD "") ++ "\uFFFD"

end Output
end LoxLang
