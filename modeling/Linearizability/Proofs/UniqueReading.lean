import Linearizability.Call
import Mathlib.Data.List.Basic

/-!
# Written forms are read in one way

Brackets, commas and quotes may occur within a text, and still no two values are written alike: each
form shows where it ends, whatever stands behind it. A quote within a text stands behind a
backslash, and behind a number there is nothing, a separator or a closing bracket. The main
statement is that the written form of a call tells its arguments. Failures are left out, since their
reasons are written as they are.
-/

namespace Linearizability

namespace Text

variable {rest rest' : List Char}

/-- What may stand behind a value: nothing, a separator or a closing bracket. -/
def Closes (rest : List Char) : Prop := ∀ c ∈ rest.head?, c = ',' ∨ c = ']' ∨ c = ')'

/-- Characters of one sort end where the first character of another sort stands. -/
theorem append_inj_of_boundary {p : Char → Prop} {xs ys : List Char} (hx : ∀ c ∈ xs, p c)
    (hy : ∀ c ∈ ys, p c) (hrest : ∀ c ∈ rest.head?, ¬ p c) (hrest' : ∀ c ∈ rest'.head?, ¬ p c)
    (h : xs ++ rest = ys ++ rest') : xs = ys ∧ rest = rest' := by
  induction xs generalizing ys with
  | nil =>
    cases ys with
    | nil => exact ⟨rfl, h⟩
    | cons y ys =>
      obtain rfl : rest = y :: (ys ++ rest') := h
      exact absurd (hy y (by simp)) (hrest y rfl)
  | cons x xs ih =>
    cases ys with
    | nil =>
      obtain rfl : x :: (xs ++ rest) = rest' := h
      exact absurd (hx x (by simp)) (hrest' x rfl)
    | cons y ys =>
      obtain ⟨rfl, htail⟩ := List.cons.inj h
      obtain ⟨rfl, hback⟩ := ih (fun c hc => hx c (by simp [hc])) (fun c hc => hy c (by simp [hc]))
        htail
      exact ⟨rfl, hback⟩

section Numbers

variable {b k l : Nat} {m n : Int}

theorem exists_digit_of_mem_toDigits {c : Char} (hb : 1 < b) (h : c ∈ Nat.toDigits b k) :
    ∃ d < b, c = d.digitChar := by
  induction k using Nat.strongRecOn with
  | _ k ih =>
    rw [Nat.toDigits_eq_if hb] at h
    split at h
    · exact ⟨k, ‹_›, by simpa using h⟩
    · rcases List.mem_append.1 h with h | h
      · exact ih _ (Nat.div_lt_self (by omega) hb) h
      · exact ⟨k % b, Nat.mod_lt _ (by omega), by simpa using h⟩

theorem digitChar_inj {d e : Nat} (hd : d < 16) (he : e < 16) (h : d.digitChar = e.digitChar) :
    d = e := by
  have hall : ∀ d < 16, ∀ e < 16, d.digitChar = e.digitChar → d = e := by decide
  exact hall d hd e he h

/-- Up to base sixteen, the digits tell the number. -/
theorem toDigits_inj (hb : 1 < b) (hb' : b ≤ 16) (h : Nat.toDigits b k = Nat.toDigits b l) :
    k = l := by
  induction k using Nat.strongRecOn generalizing l with
  | _ k ih =>
    rw [Nat.toDigits_eq_if hb (n := k), Nat.toDigits_eq_if hb (n := l)] at h
    split at h <;> split at h
    · exact digitChar_inj (by omega) (by omega) (by simpa using h)
    · have hlength := congrArg List.length h
      simp at hlength
    · have hlength := congrArg List.length h
      simp at hlength
    · obtain ⟨hdiv, hmod⟩ := List.append_inj' h rfl
      have hdiv := ih _ (Nat.div_lt_self (by omega) hb) hdiv
      have hk := Nat.mod_lt k (show 0 < b by omega)
      have hl := Nat.mod_lt l (show 0 < b by omega)
      have hmod := digitChar_inj (by omega) (by omega) (List.singleton_inj.1 hmod)
      rw [← Nat.div_add_mod k b, ← Nat.div_add_mod l b, hdiv, hmod]

theorem isDigit_of_mem_toDigits {c : Char} (h : c ∈ Nat.toDigits 10 k) : c.isDigit = true :=
  Nat.isDigit_of_mem_toDigits (by decide) (by decide) h

theorem mem_decimal {c : Char} (h : c ∈ decimal n) : c = '-' ∨ c.isDigit = true := by
  unfold decimal at h
  split at h
  · exact (List.mem_cons.1 h).imp_right isDigit_of_mem_toDigits
  · exact .inr (isDigit_of_mem_toDigits h)

theorem decimal_inj (h : decimal m = decimal n) : m = n := by
  have hsign (k : Nat) : '-' ∉ Nat.toDigits 10 k := fun hmem =>
    absurd (isDigit_of_mem_toDigits hmem) (by decide)
  unfold decimal at h
  split at h <;> split at h
  · have := toDigits_inj (by decide) (by decide) (List.cons.inj h).2
    omega
  · exact absurd (h ▸ List.mem_cons_self) (hsign _)
  · exact absurd (h ▸ List.mem_cons_self) (hsign _)
  · have := toDigits_inj (by decide) (by decide) h
    omega

theorem exists_head_decimal (n : Int) :
    ∃ c text, decimal n = c :: text ∧ (c = '-' ∨ c.isDigit = true) := by
  cases h : decimal n with
  | nil => simp [decimal] at h; split at h <;> simp at h
  | cons c text => exact ⟨c, text, rfl, mem_decimal (n := n) (by simp [h])⟩

theorem decimal_append_inj (hrest : Closes rest) (hrest' : Closes rest')
    (h : decimal m ++ rest = decimal n ++ rest') : m = n ∧ rest = rest' := by
  have hboundary {rest : List Char} (hrest : Closes rest) :
      ∀ c ∈ rest.head?, ¬ (c = '-' ∨ c.isDigit = true) := by
    intro c hc
    rcases hrest c hc with rfl | rfl | rfl <;> decide
  obtain ⟨hform, hback⟩ := append_inj_of_boundary (fun _ => mem_decimal) (fun _ => mem_decimal)
    (hboundary hrest) (hboundary hrest') h
  exact ⟨decimal_inj hform, hback⟩

end Numbers

section Quotes

variable {c d : Char} {cs ds : List Char}

/-- The character that is named by a letter behind a backslash. -/
def named : Char → Char
  | 't' => '\t'
  | 'n' => '\n'
  | 'r' => '\r'
  | '0' => '\x00'
  | c => c

/-- A character is named by a letter, or spelled by its number, or stands for itself. -/
theorem quoteChar_cases (c : Char) :
    (∃ letter, quoteChar c = ['\\', letter] ∧ letter ≠ 'u' ∧ named letter = c) ∨
      quoteChar c = byNumber c ∨ quoteChar c = [c] ∧ c ≠ '\\' ∧ c ≠ '"' := by
  unfold quoteChar
  split
  · exact .inl ⟨'"', rfl, by decide, by subst c; rfl⟩
  split
  · exact .inl ⟨'\\', rfl, by decide, by subst c; rfl⟩
  split
  · exact .inl ⟨'t', rfl, by decide, by subst c; rfl⟩
  split
  · exact .inl ⟨'n', rfl, by decide, by subst c; rfl⟩
  split
  · exact .inl ⟨'r', rfl, by decide, by subst c; rfl⟩
  split
  · exact .inl ⟨'0', rfl, by decide, by subst c; rfl⟩
  split
  · exact .inr (.inl rfl)
  · exact .inr (.inr ⟨rfl, ‹_›, ‹_›⟩)

theorem byNumber_append_inj (h : byNumber c ++ rest = byNumber d ++ rest') :
    c = d ∧ rest = rest' := by
  have hbrace (k : Nat) : ∀ c ∈ Nat.toDigits 16 k, c ≠ '\x7d' := by
    intro c hc
    obtain ⟨e, -, rfl⟩ := exists_digit_of_mem_toDigits (by decide) hc
    exact Nat.digitChar_ne _ (by decide)
  simp only [byNumber, List.cons_append, List.append_assoc, List.cons.injEq, true_and] at h
  obtain ⟨hdigits, hback⟩ := append_inj_of_boundary (hbrace _) (hbrace _) (by simp) (by simp) h
  exact ⟨Char.toNat_inj.1 (toDigits_inj (by decide) (by decide) hdigits), by simpa using hback⟩

theorem quoteChar_append_inj (h : quoteChar c ++ rest = quoteChar d ++ rest') :
    c = d ∧ rest = rest' := by
  rcases quoteChar_cases c with ⟨a, hc, ha, rfl⟩ | hc | ⟨hc, hself, -⟩ <;>
    rcases quoteChar_cases d with ⟨b, hd, hb, rfl⟩ | hd | ⟨hd, hself', -⟩ <;>
    rw [hc, hd] at h
  · obtain ⟨rfl, hback⟩ : a = b ∧ rest = rest' := by simpa using h
    exact ⟨rfl, hback⟩
  · exact absurd (List.cons.inj (List.cons.inj h).2).1 ha
  · exact absurd (List.cons.inj h).1.symm hself'
  · exact absurd (List.cons.inj (List.cons.inj h).2).1.symm hb
  · exact byNumber_append_inj h
  · exact absurd (List.cons.inj h).1.symm hself'
  · exact absurd (List.cons.inj h).1 hself
  · exact absurd (List.cons.inj h).1 hself
  · exact List.cons.inj h

/-- A quote never stands where a character could. -/
theorem quoteChar_append_ne (c : Char) (rest rest' : List Char) :
    quoteChar c ++ rest ≠ '"' :: rest' := by
  intro h
  rcases quoteChar_cases c with ⟨letter, hc, -⟩ | hc | ⟨hc, -, hquote⟩
  · simp [hc] at h
  · simp [hc, byNumber] at h
  · rw [hc] at h
    exact hquote (List.cons.inj h).1

theorem quoted_append_inj (h : quoted cs ++ rest = quoted ds ++ rest') :
    cs = ds ∧ rest = rest' := by
  simp only [quoted, List.cons_append, List.append_assoc, List.cons.injEq, true_and,
    List.nil_append] at h
  induction cs generalizing ds with
  | nil =>
    cases ds with
    | nil => exact ⟨rfl, (List.cons.inj h).2⟩
    | cons d ds =>
      rw [List.flatMap_cons, List.append_assoc] at h
      exact absurd h.symm (quoteChar_append_ne d _ _)
  | cons c cs ih =>
    rw [List.flatMap_cons, List.append_assoc] at h
    cases ds with
    | nil => exact absurd h (quoteChar_append_ne c _ _)
    | cons d ds =>
      rw [List.flatMap_cons, List.append_assoc] at h
      obtain ⟨rfl, htail⟩ := quoteChar_append_inj h
      obtain ⟨rfl, hback⟩ := ih htail
      exact ⟨rfl, hback⟩

end Quotes

section Separators

variable {α : Type} {form : α → List Char} {close : Char} {as bs : List α}

/-- What stands behind the first of some items. -/
def behindFirst : List (List Char) → List Char → List Char
  | [], rest => rest
  | item :: items, rest => ',' :: ' ' :: (commaSeparated (item :: items) ++ rest)

theorem commaSeparated_cons_append (item : List Char) (items : List (List Char))
    (rest : List Char) :
    commaSeparated (item :: items) ++ rest = item ++ behindFirst items rest := by
  cases items with
  | nil => rfl
  | cons next items => simp [commaSeparated_cons_cons, behindFirst]

theorem closes_behindFirst (hclose : close = ']' ∨ close = ')') (items : List (List Char)) :
    Closes (behindFirst items (close :: rest)) := by
  intro c hc
  cases items with
  | nil =>
    obtain rfl : close = c := by simpa [behindFirst] using hc
    exact .inr hclose
  | cons item items =>
    obtain rfl : ',' = c := by simpa [behindFirst] using hc
    exact .inl rfl

theorem behindFirst_inj {items items' : List (List Char)} (hclose : close = ']' ∨ close = ')')
    (h : behindFirst items (close :: rest) = behindFirst items' (close :: rest')) :
    commaSeparated items ++ close :: rest = commaSeparated items' ++ close :: rest' := by
  have hcomma : close ≠ ',' := by rcases hclose with rfl | rfl <;> decide
  cases items with
  | nil =>
    cases items' with
    | nil => exact h
    | cons item' items' => exact absurd (List.cons.inj h).1 hcomma
  | cons item items =>
    cases items' with
    | nil => exact absurd (List.cons.inj h).1.symm hcomma
    | cons item' items' => exact (List.cons.inj (List.cons.inj h).2).2

/-- Items that each show where they end are told by their list in brackets. -/
theorem commaSeparated_append_inj (hclose : close = ']' ∨ close = ')')
    (hform : ∀ a ∈ as, ∀ b ∈ bs, ∀ rest rest', Closes rest → Closes rest' →
      form a ++ rest = form b ++ rest' → a = b ∧ rest = rest')
    (hne : ∀ a ∈ as ++ bs, ∀ rest rest', form a ++ rest ≠ close :: rest')
    (h : commaSeparated (as.map form) ++ close :: rest =
      commaSeparated (bs.map form) ++ close :: rest') : as = bs ∧ rest = rest' := by
  induction as generalizing bs with
  | nil =>
    cases bs with
    | nil => exact ⟨rfl, (List.cons.inj h).2⟩
    | cons b bs =>
      rw [List.map_cons, commaSeparated_cons_append] at h
      exact absurd h.symm (hne b (by simp) _ _)
  | cons a as ih =>
    rw [List.map_cons, commaSeparated_cons_append] at h
    cases bs with
    | nil => exact absurd h (hne a (by simp) _ _)
    | cons b bs =>
      rw [List.map_cons, commaSeparated_cons_append] at h
      obtain ⟨rfl, hbehind⟩ := hform a (by simp) b (by simp) _ _
        (closes_behindFirst hclose _) (closes_behindFirst hclose _) h
      obtain ⟨rfl, hback⟩ := ih (fun x hx y hy => hform x (by simp [hx]) y (by simp [hy]))
        (fun x hx => hne x (by simp only [List.mem_append, List.mem_cons] at hx ⊢; tauto))
        (behindFirst_inj hclose hbehind)
      exact ⟨rfl, hback⟩

end Separators
end Text

namespace Value

variable {v w : Value} {rest rest' : List Char}

/-- There is no failure within the value. -/
inductive FailureFree : Value → Prop
  | null : FailureFree .null
  | bool (b : Bool) : FailureFree (.bool b)
  | int (n : Int64) : FailureFree (.int n)
  | str (s : String) : FailureFree (.str s)
  | list {items : List Value} (h : ∀ item ∈ items, FailureFree item) : FailureFree (.list items)

/-- The rank of a value whose form begins with this character. -/
def rankOf (c : Char) : Nat :=
  if c = 'n' then 0 else if c = 't' ∨ c = 'f' then 1 else if c = '"' then 3 else if c = '[' then 4
  else 2

theorem rankOf_of_decimal {c : Char} (h : c = '-' ∨ c.isDigit = true) :
    rankOf c = 2 ∧ c ≠ ']' ∧ c ≠ ')' := by
  rcases h with rfl | h
  · decide
  · have hne {d : Char} (hd : d.isDigit = false) : c ≠ d := by
      rintro rfl
      simp [hd] at h
    refine ⟨?_, hne (by decide), hne (by decide)⟩
    rw [rankOf, if_neg (hne (by decide)), if_neg, if_neg (hne (by decide)),
      if_neg (hne (by decide))]
    exact not_or.2 ⟨hne (by decide), hne (by decide)⟩

/-- The first character of a form tells the rank of the value and closes nothing. -/
theorem exists_head (hv : v.FailureFree) :
    ∃ c text, v.shortForm = c :: text ∧ rankOf c = v.rank ∧ c ≠ ']' ∧ c ≠ ')' := by
  cases hv with
  | null => exact ⟨'n', _, rfl, by decide⟩
  | bool b =>
    cases b with
    | true => exact ⟨'t', _, rfl, by decide⟩
    | false => exact ⟨'f', _, rfl, by decide⟩
  | int n =>
    obtain ⟨c, text, hform, hc⟩ := Text.exists_head_decimal n.toInt
    exact ⟨c, text, by rw [shortForm, hform], rankOf_of_decimal hc⟩
  | str s => exact ⟨'"', _, rfl, rfl, by decide, by decide⟩
  | list h => exact ⟨'[', _, rfl, rfl, by decide, by decide⟩

theorem rank_eq_of_append_eq (hv : v.FailureFree) (hw : w.FailureFree)
    (h : v.shortForm ++ rest = w.shortForm ++ rest') : v.rank = w.rank := by
  obtain ⟨c, text, hform, hc, -⟩ := exists_head hv
  obtain ⟨d, text', hform', hd, -⟩ := exists_head hw
  rw [hform, hform'] at h
  rw [← hc, ← hd, (List.cons.inj h).1]

theorem shortForm_append_ne {close : Char} (hclose : close = ']' ∨ close = ')')
    (hv : v.FailureFree) (rest rest' : List Char) : v.shortForm ++ rest ≠ close :: rest' := by
  obtain ⟨c, text, hform, -, hbracket, hparenthesis⟩ := exists_head hv
  rw [hform]
  intro h
  obtain rfl : c = close := (List.cons.inj h).1
  exact hclose.elim hbracket hparenthesis

/-- A form tells the value and where it ends. -/
theorem shortForm_append_inj (hv : v.FailureFree) (hw : w.FailureFree) (hrest : Text.Closes rest)
    (hrest' : Text.Closes rest') (h : v.shortForm ++ rest = w.shortForm ++ rest') :
    v = w ∧ rest = rest' := by
  have hrank := rank_eq_of_append_eq hv hw h
  induction hv generalizing w rest rest' with
  | null =>
    cases hw with
    | null => exact ⟨rfl, List.append_cancel_left h⟩
    | _ => simp [rank] at hrank
  | bool b =>
    cases hw with
    | bool b' => cases b <;> cases b' <;> simp_all [shortForm, boolForm]
    | _ => simp [rank] at hrank
  | int n =>
    cases hw with
    | int n' =>
      rw [shortForm, shortForm] at h
      obtain ⟨hn, hback⟩ := Text.decimal_append_inj hrest hrest' h
      exact ⟨by rw [Int64.toInt_inj.1 hn], hback⟩
    | _ => simp [rank] at hrank
  | str s =>
    cases hw with
    | str s' =>
      rw [shortForm, shortForm] at h
      obtain ⟨hs, hback⟩ := Text.quoted_append_inj h
      exact ⟨by rw [String.toList_inj.1 hs], hback⟩
    | _ => simp [rank] at hrank
  | @list items hitems ih =>
    cases hw with
    | @list items' hitems' =>
      simp only [shortForm, Text.bracketed, shortForms_eq_map, List.cons_append, List.append_assoc,
        List.nil_append, List.cons.injEq, true_and] at h
      obtain ⟨rfl, hback⟩ := Text.commaSeparated_append_inj (.inl rfl)
        (fun a ha b hb _ _ hr hr' heq =>
          ih a ha (hitems' b hb) hr hr' heq (rank_eq_of_append_eq (hitems a ha) (hitems' b hb) heq))
        (fun a ha => shortForm_append_ne (.inl rfl)
          ((List.mem_append.1 ha).elim (hitems a) (hitems' a))) h
      exact ⟨rfl, hback⟩
    | _ => simp [rank] at hrank

end Value

namespace Call

/-- Calls of one name whose arguments hold no failures are written alike only if they have the same
arguments, and so are single values only if they are equal. -/
theorem written_form_tells_args :
    (∀ call call' : Call, call.name = call'.name → (∀ arg ∈ call.args, arg.FailureFree) →
      (∀ arg ∈ call'.args, arg.FailureFree) → toString call = toString call' →
      call.args = call'.args) ∧
    ∀ v w : Value, v.FailureFree → w.FailureFree → toString v = toString w → v = w := by
  constructor
  · intro call call' hname hargs hargs' h
    have h : call.shortForm = call'.shortForm := String.ofList_injective h
    simp only [shortForm, Text.applied, hname] at h
    have h := (List.cons.inj (List.append_cancel_left h)).2
    exact (Text.commaSeparated_append_inj (.inr rfl)
      (fun a ha b hb _ _ => Value.shortForm_append_inj (hargs a ha) (hargs' b hb))
      (fun a ha => Value.shortForm_append_ne (.inr rfl)
        ((List.mem_append.1 ha).elim (hargs a) (hargs' a))) h).1
  · intro v w hv hw h
    have h : v.shortForm ++ [] = w.shortForm ++ [] := by
      simpa using String.ofList_injective h
    exact (Value.shortForm_append_inj hv hw (by simp [Text.Closes]) (by simp [Text.Closes]) h).1

/-- A text may look like the end of a list and the beginning of another value. The two calls differ
in what their operations announce, which is not written. -/
theorem written_form_tells_nested_args :
    let call : Call := ⟨⟨"offer", 2⟩, [.list [.str "a\"], null, [\"b", .int (-1)], .null]⟩
    let call' : Call := { call with operation := ⟨"offer", 1⟩ }
    call.name = call'.name ∧ (∀ arg ∈ call.args, arg.FailureFree) ∧
      toString call = toString call' ∧ call.args = call'.args := by
  intro call call'
  have hlist : (Value.list [.str "a\"], null, [\"b", .int (-1)]).FailureFree := by
    refine .list fun item hitem => ?_
    rcases List.mem_pair.1 hitem with rfl | rfl
    · exact .str _
    · exact .int _
  have hargs : ∀ arg ∈ call.args, arg.FailureFree := by
    intro arg harg
    rcases List.mem_pair.1 harg with rfl | rfl
    · exact hlist
    · exact .null
  exact ⟨rfl, hargs, rfl, written_form_tells_args.1 call call' rfl hargs hargs rfl⟩

/-- The reason of a failure may look like the end of one argument and the beginning of another. -/
example :
    (Call.named "push" [.failed "a), failed(b"]).shortForm =
      (Call.named "push" [.failed "a", .failed "b"]).shortForm := by
  decide

end Call
end Linearizability
