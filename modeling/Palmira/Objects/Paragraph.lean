import Palmira.Core.Zval

/-!
# Paragraphs

A paragraph of a text is a wide string or a char string of some encoding. The
conversions of `codepages` and its codes are parameters.
-/

namespace Palmira.Objects

/-- `uint32_t(-1)`: the encoding of a wide string. -/
def wideEncoding : UInt32 := 0xFFFFFFFF

theorem utf8Code_ne_wide : (65001 : UInt32) ≠ wideEncoding := by decide

/-- The parts of `codepages` the code uses. -/
structure Codepages where
  codepageUtf8 : UInt32
  utf8_ne_wide : codepageUtf8 ≠ wideEncoding
  widetombcs : UInt32 → WideStr → String
  mbcstombcs : UInt32 → UInt32 → String → String

/-- A paragraph, or a block, of a text. -/
inductive Paragraph where
  | wide (s : WideStr)
  | chars (encoding : UInt32) (coded : encoding ≠ wideEncoding) (s : String)
  deriving DecidableEq

/-- `UtfStr( para )` -/
def utfStr (pages : Codepages) : Paragraph → String
  | .wide s => pages.widetombcs pages.codepageUtf8 s
  | .chars encoding _ s =>
      if encoding = pages.codepageUtf8 then s
      else pages.mbcstombcs pages.codepageUtf8 encoding s

/-- The paragraph of a text in UTF-8. -/
def Codepages.utf8 (pages : Codepages) (s : String) : Paragraph :=
  .chars pages.codepageUtf8 pages.utf8_ne_wide s

@[simp] theorem utfStr_utf8 (pages : Codepages) (s : String) : utfStr pages (pages.utf8 s) = s := by
  simp [utfStr, Codepages.utf8]

end Palmira.Objects
