import Mathlib.Data.List.TakeWhile

/-! # A text with a cursor

What is before the cursor is kept backwards, so that every edit is at the head of a list.
Moving the cursor does not change the text.
-/

namespace Text

/-- A list that is cut in two at the cursor. -/
structure Zipper (α : Type*) where
  before : List α
  after : List α

namespace Zipper

variable {α : Type*}

def text (z : Zipper α) : List α := z.before.reverse ++ z.after

/-- The cursor behind the text. -/
def ofText (s : List α) : Zipper α := ⟨s.reverse, []⟩

def insert (z : Zipper α) (s : List α) : Zipper α := ⟨s.reverse ++ z.before, z.after⟩

def backspace (z : Zipper α) : Zipper α := ⟨z.before.tail, z.after⟩

def delete (z : Zipper α) : Zipper α := ⟨z.before, z.after.tail⟩

def left (z : Zipper α) : Zipper α :=
  match z.before with
  | [] => z
  | c :: before => ⟨before, c :: z.after⟩

def right (z : Zipper α) : Zipper α :=
  match z.after with
  | [] => z
  | c :: after => ⟨c :: z.before, after⟩

/-- Left over everything that satisfies `p`. -/
def leftWhile (z : Zipper α) (p : α → Bool) : Zipper α :=
  ⟨z.before.dropWhile p, (z.before.takeWhile p).reverse ++ z.after⟩

/-- Right over everything that satisfies `p`. -/
def rightWhile (z : Zipper α) (p : α → Bool) : Zipper α :=
  ⟨(z.after.takeWhile p).reverse ++ z.before, z.after.dropWhile p⟩

variable (z : Zipper α)

theorem length_text : z.text.length = z.before.length + z.after.length := by
  rw [text, List.length_append, List.length_reverse]

@[simp] theorem text_ofText (s : List α) : (ofText s).text = s := by
  simp [text, ofText]

@[simp] theorem text_left : z.left.text = z.text := by
  obtain ⟨before, after⟩ := z
  cases before with
  | nil => rfl
  | cons c before => simp [left, text]

@[simp] theorem text_right : z.right.text = z.text := by
  obtain ⟨before, after⟩ := z
  cases after with
  | nil => rfl
  | cons c after => simp [right, text]

@[simp] theorem text_leftWhile (p : α → Bool) : (z.leftWhile p).text = z.text := by
  have hsplit : (z.before.dropWhile p).reverse ++ (z.before.takeWhile p).reverse =
      z.before.reverse := by
    rw [← List.reverse_append, List.takeWhile_append_dropWhile]
  rw [text, leftWhile, ← List.append_assoc, hsplit, text]

@[simp] theorem text_rightWhile (p : α → Bool) : (z.rightWhile p).text = z.text := by
  rw [text, rightWhile, List.reverse_append, List.reverse_reverse, List.append_assoc,
    List.takeWhile_append_dropWhile, text]

theorem length_before_left : z.left.before.length = z.before.length - 1 := by
  obtain ⟨before, after⟩ := z
  cases before with
  | nil => rfl
  | cons c before => rfl

theorem length_before_right :
    z.right.before.length =
      if z.before.length < z.text.length then z.before.length + 1 else z.before.length := by
  obtain ⟨before, after⟩ := z
  cases after with
  | nil => simp [right, text]
  | cons c after => simp [right, text]

theorem text_insert (s : List α) : (z.insert s).text = z.before.reverse ++ (s ++ z.after) := by
  simp [text, insert]

theorem text_backspace_sublist : List.Sublist z.backspace.text z.text :=
  List.Sublist.append_right (List.tail_sublist _).reverse _

theorem text_delete_sublist : List.Sublist z.delete.text z.text :=
  List.Sublist.append_left (List.tail_sublist _) _

end Zipper

end Text
