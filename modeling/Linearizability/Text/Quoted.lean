import Linearizability.Text.Unprintable

/-!
# Texts that spell a value

Characters are kept in lists, so that what a printer writes can be taken apart again. A quoted text
writes a quote and a backslash behind a backslash, names tab, line feed, carriage return and the
null character by a letter, and spells every other unprintable character by its number.
-/

namespace Linearizability.Text

/-- The decimal digits, behind a minus sign for a negative number. -/
def decimal (n : Int) : List Char :=
  if n < 0 then '-' :: Nat.toDigits 10 n.natAbs else Nat.toDigits 10 n.natAbs

/-- The number is hexadecimal, in lower case and without leading zeros. -/
def byNumber (c : Char) : List Char :=
  '\\' :: 'u' :: '\x7b' :: (Nat.toDigits 16 c.toNat ++ ['\x7d'])

def quoteChar (c : Char) : List Char :=
  if c = '"' then ['\\', '"']
  else if c = '\\' then ['\\', '\\']
  else if c = '\t' then ['\\', 't']
  else if c = '\n' then ['\\', 'n']
  else if c = '\r' then ['\\', 'r']
  else if c = '\x00' then ['\\', '0']
  else if isUnprintable c then byNumber c
  else [c]

def quoted (cs : List Char) : List Char :=
  '"' :: (cs.flatMap quoteChar ++ ['"'])

def commaSeparated : List (List Char) → List Char
  | [] => []
  | [item] => item
  | item :: items => item ++ ',' :: ' ' :: commaSeparated items

def bracketed (items : List (List Char)) : List Char :=
  '[' :: (commaSeparated items ++ [']'])

/-- A name with its argument in parentheses. -/
def applied (name : String) (argument : List Char) : List Char :=
  name.toList ++ '(' :: (argument ++ [')'])

@[simp] theorem commaSeparated_nil : commaSeparated [] = [] := rfl

@[simp] theorem commaSeparated_singleton (item : List Char) : commaSeparated [item] = item := rfl

theorem commaSeparated_cons_cons (item next : List Char) (items : List (List Char)) :
    commaSeparated (item :: next :: items) =
      item ++ ',' :: ' ' :: commaSeparated (next :: items) := rfl

end Linearizability.Text
