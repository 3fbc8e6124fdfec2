import AnchorLowering.Proofs.Bracketing
import AnchorLowering.Proofs.OperationRun
import AnchorLowering.Proofs.StatementText

/-!
# The texts of operations

What an operation becomes is bracketed if its arguments are (`Spelled.bracketed_render`). The texts
are put together from parts, and each part leaves the closers that a reader waits for as they were,
or is closed by a later one.
-/

namespace AnchorLowering.Lowering

open List Pattern Source

variable {op : SequenceOp} {args t b k w a j : Text}

/-! ## The texts of operations -/

section

variable {receiver : Text} {f : SequenceField}

theorem bracketed_of_word (h : ∀ x ∈ t, isWord x = true) : Bracketed t := .of_class h (by decide)

theorem Spelled.bracketed_receiver (h : Spelled receiver f) : Bracketed receiver := by
  refine .of_class (p := fun x => isWord x || x == '.') (fun x hx => ?_) (by decide)
  rcases h.receiver x hx with hx | rfl
  · rw [hx]
    rfl
  · rfl

theorem Spelled.isWord_lengthName (h : Spelled receiver f) :
    ∀ x ∈ f.lengthName, isWord x = true := by
  intro x hx
  rcases mem_append.1 (show x ∈ f.name ++ "_len".toList from hx) with hx | hx
  · exact h.name x hx
  · have hlen : ∀ y ∈ "_len".toList, isWord y = true := by decide
    exact hlen x hx

/-- The brackets of joined texts are followed from part to part. -/
theorem awaited_concat {a b c : List Char} {parts : List Text} (ht : awaited a t = some b)
    (hparts : awaited b (Text.concat parts) = some c) :
    awaited a (Text.concat (t :: parts)) = some c := by
  rw [Text.concat, flatten_cons, awaited_append, ht, Option.bind_some]
  exact hparts

theorem bracketed_braces (h : Bracketed t) : Bracketed (braces t) :=
  awaited_concat (b := ['\x7d']) rfl <| awaited_concat (h.awaited_eq _) <| awaited_concat rfl rfl

/-- A guard is bracketed if its condition and its error are. -/
theorem bracketed_guardWith {condition error : Text} (hcondition : Bracketed condition)
    (herror : Bracketed error) :
    Bracketed (guardWith condition error) := by
  have hreturn : Bracketed (Text.concat ["return Err(", error, ");"]) :=
    awaited_concat (b := [')']) rfl <| awaited_concat (herror.awaited_eq _) <|
    awaited_concat rfl rfl
  exact awaited_concat rfl <| awaited_concat hcondition <| awaited_concat rfl <|
    awaited_concat (bracketed_braces hreturn) rfl

/-- An index is bracketed if the argument it is made from is. -/
theorem bracketed_asIndex (h : Bracketed args) (htrim : Text.trim args = args) :
    Bracketed (asIndex args) := by
  rw [asIndex, htrim]
  split
  · exact awaited_concat h rfl
  · exact awaited_concat (b := [')']) rfl <| awaited_concat (h.awaited_eq _) rfl

/-- An operation with bracketed arguments is lowered to a bracketed text. -/
theorem Spelled.bracketed_render (h : Spelled receiver f) (hop : op ∈ SequenceOp.table.map (·.2))
    (hargs : Bracketed args) (htrim : Text.trim args = args) :
    Bracketed (op.render receiver f args) := by
  have htarget : Bracketed (receiver ++ f.name) :=
    h.bracketed_receiver.append (bracketed_of_word h.name)
  have hlength : Bracketed (receiver ++ f.lengthName) :=
    h.bracketed_receiver.append (bracketed_of_word h.isWord_lengthName)
  have hlive : Bracketed (receiver ++ f.lengthName ++ " as usize".toList) := hlength.append rfl
  have hcapacity := bracketed_of_word h.capacity
  have herror : Bracketed invalidArgument := by decide
  cases op with
  | push =>
    have hfull : Bracketed (Text.concat [receiver ++ f.lengthName ++ " as usize".toList, " >= ",
        f.capacity.text]) :=
      awaited_concat hlive <| awaited_concat rfl <| awaited_concat hcapacity rfl
    exact bracketed_braces <| awaited_concat (bracketed_guardWith hfull herror) <|
      awaited_concat rfl <| awaited_concat htarget <|
      awaited_concat (b := [']']) rfl <| awaited_concat (hlive.awaited_eq _) <|
      awaited_concat rfl <|
      awaited_concat hargs <| awaited_concat rfl <| awaited_concat hlength rfl
  | len =>
    exact awaited_concat (b := [')']) rfl <| awaited_concat (hlive.awaited_eq _) rfl
  | isEmpty => exact awaited_concat (b := [')']) rfl <| awaited_concat (hlength.awaited_eq _) rfl
  | clear => exact awaited_concat hlength rfl
  | remove =>
    have hbeyond : Bracketed
        (Text.concat ["remove_at >= ", receiver ++ f.lengthName ++ " as usize".toList]) :=
      awaited_concat rfl <| awaited_concat hlive rfl
    have hshift : Bracketed (Text.concat
        [receiver ++ f.name, "[shift_at] = ", receiver ++ f.name, "[shift_at + 1];"]) :=
      awaited_concat htarget <| awaited_concat rfl <| awaited_concat htarget rfl
    exact bracketed_braces <| awaited_concat rfl <|
      awaited_concat (bracketed_asIndex hargs htrim) <|
      awaited_concat rfl <| awaited_concat (bracketed_guardWith hbeyond herror) <|
      awaited_concat rfl <|
      awaited_concat htarget <| awaited_concat (by decide) <| awaited_concat hlive <|
      awaited_concat rfl <|
      awaited_concat (bracketed_braces hshift) <| awaited_concat rfl <| awaited_concat hlength rfl
  | extend =>
    have hbeyond : Bracketed (Text.concat ["extend_at + extend_src.len() > ", f.capacity.text]) :=
      awaited_concat (by decide) <| awaited_concat hcapacity rfl
    exact bracketed_braces <| awaited_concat rfl <| awaited_concat hargs <| awaited_concat rfl <|
      awaited_concat hlive <| awaited_concat rfl <|
      awaited_concat (bracketed_guardWith hbeyond herror) <|
      awaited_concat rfl <| awaited_concat htarget <| awaited_concat (by decide) <|
      awaited_concat hlength <|
      awaited_concat (by decide) <| awaited_concat (bracketed_of_word h.counterType) rfl
  | view method =>
    have hmethod := bracketed_of_word (isWord_of_known hop rfl)
    exact awaited_concat htarget <| awaited_concat (b := [']']) rfl <|
      awaited_concat (hlive.awaited_eq _) <| awaited_concat rfl <| awaited_concat hmethod <|
      awaited_concat (b := [')']) rfl <| awaited_concat (hargs.awaited_eq _) rfl

end

end AnchorLowering.Lowering
