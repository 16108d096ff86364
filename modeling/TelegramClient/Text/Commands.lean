import TelegramClient.Lang.ValueParser
import TelegramClient.Text.Characters

/-! Text commands (`ui/text/text.h`) and `textSkipCommand` of `ui/text/text.cpp`. -/

namespace TelegramClient.Text

open Lang (textCommand textCommandLangTag)

def textCommandLinkIndex : QChar := 0x09

def textCommandLinkText : QChar := 0x0A

def textCommandSkipBlock : QChar := 0x0D

/-- How many characters the parameters of a command take. -/
def commandParameters (canLink : Bool) (cmd first : QChar) : Option Nat :=
  if cmd = textCommandLinkIndex then if first > 0x7FFF then none else some 1
  else if cmd = textCommandLinkText then
    if first ≥ 4096 || !canLink then none else some (first.toNat + 1)
  else if cmd = textCommandSkipBlock then some 2
  else if cmd = textCommandLangTag then some 1
  else some 0

/-- How many characters the command at the start of the text takes, none if it is not complete. -/
def textSkipCommand (canLink : Bool) : List QChar → Nat
  | ch :: cmd :: first :: rest =>
    if ch ≠ textCommand then 0
    else
      match commandParameters canLink cmd first with
      | none => 0
      | some k => if (first :: rest)[k]? = some textCommand then k + 3 else 0
  | _ => 0

variable {canLink : Bool} {text : List QChar}

/-- A complete command ends inside the text, and is one in front of any other text too. -/
theorem textSkipCommand_spec (h : 0 < textSkipCommand canLink text) :
    3 ≤ textSkipCommand canLink text ∧ textSkipCommand canLink text ≤ text.length ∧
      text.head? = some textCommand ∧
      ∀ rest, textSkipCommand canLink (text.take (textSkipCommand canLink text) ++ rest) =
        textSkipCommand canLink text := by
  rcases text with _ | ⟨ch, _ | ⟨cmd, _ | ⟨first, tail⟩⟩⟩
  · simp [textSkipCommand] at h
  · simp [textSkipCommand] at h
  · simp [textSkipCommand] at h
  · by_cases hch : ch = textCommand
    · cases hk : commandParameters canLink cmd first with
      | none => simp [textSkipCommand, hch, hk] at h
      | some k =>
        by_cases hend : (first :: tail)[k]? = some textCommand
        · have hlt := (List.getElem?_eq_some_iff.mp hend).1
          have hskip : textSkipCommand canLink (ch :: cmd :: first :: tail) = k + 3 := by
            simp [textSkipCommand, hch, hk, hend]
          rw [hskip]
          refine ⟨by omega, ?_, by rw [hch]; rfl, ?_⟩
          · simp only [List.length_cons] at hlt ⊢
            omega
          · intro rest
            have htake : (first :: tail).take (k + 1) ++ rest = first :: (tail.take k ++ rest) := by
              simp
            have hend' : (first :: (tail.take k ++ rest))[k]? = some textCommand := by
              rw [← htake, List.getElem?_append_left (by rw [List.length_take]; omega),
                List.getElem?_take_of_lt (by omega), hend]
            rw [show (ch :: cmd :: first :: tail).take (k + 3) ++ rest =
              ch :: cmd :: first :: (tail.take k ++ rest) by simp]
            simp [textSkipCommand, hch, hk, hend']
        · simp [textSkipCommand, hch, hk, hend] at h
    · simp [textSkipCommand, hch] at h

theorem textSkipCommand_le : textSkipCommand canLink text ≤ text.length := by
  by_cases h : 0 < textSkipCommand canLink text
  · exact (textSkipCommand_spec h).2.1
  · omega

theorem textSkipCommand_of_ne {ch : QChar} {rest : List QChar} (h : ch ≠ textCommand) :
    textSkipCommand canLink (ch :: rest) = 0 := by
  by_contra hne
  have hhead := (textSkipCommand_spec (Nat.pos_of_ne_zero hne)).2.2.1
  exact h (Option.some.inj hhead)

end TelegramClient.Text
