import Mathlib

/-! The classes of characters of `ui/text/text.h`. What they ask Qt and the platform for is a
parameter. -/

namespace TelegramClient.Text

abbrev QChar := UInt16

def isHighSurrogate (ch : QChar) : Bool := ch &&& 0xFC00 == 0xD800

def isLowSurrogate (ch : QChar) : Bool := ch &&& 0xFC00 == 0xDC00

def chIsNewline (ch : QChar) : Bool := ch == 0x000A || ch == 156

def chIsAlmostLinkEnd (ch : QChar) : Bool :=
  ch == 0x3F || ch == 0x2C || ch == 0x2E || ch == 0x22 || ch == 0x3A || ch == 0x21 || ch == 0x27

def chIsSentenceEnd (ch : QChar) : Bool := ch == 0x2E || ch == 0x3F || ch == 0x21

def chIsSentencePartEnd (ch : QChar) : Bool := ch == 0x2C || ch == 0x3A || ch == 0x3B

def chIsWordSeparator (ch : QChar) : Bool :=
  ch == 0x20 || ch == 0x0A || ch == 0x2E || ch == 0x2C || ch == 0x3F || ch == 0x21 || ch == 0x40 ||
    ch == 0x23 || ch == 0x24 || ch == 0x3A || ch == 0x3B || ch == 0x2D || ch == 0x3C || ch == 0x3E ||
    ch == 0x5B || ch == 0x5D || ch == 0x28 || ch == 0x29 || ch == 0x7B || ch == 0x7D || ch == 0x3D ||
    ch == 0x2F || ch == 0x2B || ch == 0x25 || ch == 0x26 || ch == 0x5E || ch == 0x2A || ch == 0x27 ||
    ch == 0x22 || ch == 0x60 || ch == 0x7E || ch == 0x7C

/-- `QChar::isSpace`, `QChar::category` and the settings of the platform. -/
structure Platform where
  isSpace : QChar → Bool
  isMarkNonSpacing : QChar → Bool
  isMac : Bool
  isElCapitan : Bool
  /-- `cIsSnowLeopard`, in builds with `OS_MAC_OLD` -/
  isSnowLeopard : Bool

namespace Platform

variable (p : Platform)

def chIsDiac (ch : QChar) : Bool :=
  p.isMarkNonSpacing ch || ch == 1652 || (ch ≥ 64606 && ch ≤ 64611)

def chIsSpace (ch : QChar) : Bool :=
  p.isSpace ch || ch < 32 || ch == 0x2029 || ch == 0x2028 || ch == 0xFFFC || ch == 0x000D ||
    ch == 0x0009 || ch == 8203

def chIsBad (ch : QChar) : Bool :=
  (p.isSnowLeopard && (ch == 8207 || ch == 8206 || ch == 8288)) || ch == 0 ||
    (ch ≥ 8232 && ch < 8237) || (ch ≥ 65024 && ch < 65040 && ch != 65039) ||
    (ch ≥ 127 && ch < 160 && ch != 156) || (p.isMac && ch == 6158) ||
    (p.isMac && ch ≥ 0x0B00 && ch ≤ 0x0B7F && p.chIsDiac ch && p.isElCapitan)

def chIsLinkEnd (ch : QChar) : Bool :=
  ch == 0x0010 || p.chIsBad ch || p.chIsSpace ch || chIsNewline ch || isLowSurrogate ch ||
    isHighSurrogate ch

def chIsTrimmed (ch : QChar) : Bool := p.chIsSpace ch || p.chIsBad ch

end Platform

def chReplacedBySpace (ch : QChar) : Bool :=
  ch ≤ 0x02 || (ch ≥ 0x07 && ch ≤ 0x09) || (ch ≥ 0x0b && ch ≤ 0x1f) || ch == 819 || ch == 831 ||
    ch == 778 || (ch ≥ 8232 && ch ≤ 8237)

end TelegramClient.Text
