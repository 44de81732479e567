/-! Positions in the analysed source. They are carried into diagnostics and never interpreted. -/
namespace EffectAudit

structure Span where
  startLine : UInt32 := 0
  startCol : UInt32 := 0
  endLine : UInt32 := 0
  endCol : UInt32 := 0
  deriving DecidableEq, Repr

namespace Span

def zero : Span := {}

instance : Inhabited Span := ⟨zero⟩

def point (line col : UInt32) : Span := ⟨line, col, line, col⟩

def text (s : Span) : String := s!"{s.startLine.toNat}:{s.startCol.toNat}"

end Span
end EffectAudit
