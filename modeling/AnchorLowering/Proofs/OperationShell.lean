import AnchorLowering.Proofs.PieceEdit
import AnchorLowering.Proofs.SequenceCall

/-!
# The shell of an operation

A lowered operation is its arguments with code around them, its *shell*. The shell is plain and
starts afresh, so it can take the place of the operation without changing how the text around it is
cut into pieces.
-/

namespace AnchorLowering.Lowering

open List Pattern Source

variable {k x : Char} {prev : Option Char} {s : SequenceField} {op : SequenceOp}
  {args receiver t : Text}

/-! ## The texts of an operation -/

/-- The texts that name a sequence are names and numbers. -/
structure Names (receiver : Text) (s : SequenceField) : Prop where
  receiver_head : receiver.head?.any isWord = true
  receiver : ∀ x ∈ receiver, DottedChar x
  name : ∀ x ∈ s.name, isWord x = true
  capacity : ∀ x ∈ s.capacity.text, isWord x = true
  counterType : ∀ x ∈ s.counterType, isWord x = true

/-- The texts that name a sequence are names and numbers, also where the receiver is empty. -/
structure Spelled (receiver : Text) (s : SequenceField) : Prop where
  receiver : ∀ x ∈ receiver, DottedChar x
  name : ∀ x ∈ s.name, isWord x = true
  capacity : ∀ x ∈ s.capacity.text, isWord x = true
  counterType : ∀ x ∈ s.counterType, isWord x = true

theorem Names.spelled (h : Names receiver s) : Spelled receiver s :=
  ⟨h.receiver, h.name, h.capacity, h.counterType⟩

/-- The counters of a context have the types that their capacities ask for. -/
def Counted (c : Context) : Prop :=
  ∀ s ∈ c.sequences, s.counterType = FieldType.counterType s.capacity.toNat

theorem counted_build (instruction : Text) (accounts : List AccountSlot)
    (layouts : Table RecordLayout) (derived : List DerivedAccount) (config : Config) :
    Counted (Context.build instruction accounts layouts derived config) := by
  intro s hs
  obtain ⟨held, -, hs⟩ := mem_flatMap.1 hs
  obtain ⟨f, -, hf⟩ := mem_filterMap.1 hs
  obtain ⟨capacity, -, rfl⟩ := Option.map_eq_some_iff.1 hf
  rfl

theorem isWord_of_mem_text (b : Bound) : ∀ x ∈ b.text, isWord x = true := by
  cases b with
  | flag b => cases b <;> decide
  | count n =>
    intro x hx
    have hdigit : x.isDigit = true := Nat.isDigit_of_mem_toDigits (by omega) (by omega) hx
    simp only [Char.isDigit, Bool.and_eq_true, decide_eq_true_eq, UInt32.le_iff_toNat_le] at hdigit
    have hascii : x.toNat < 0x80 := Nat.lt_of_le_of_lt hdigit.2 (by decide)
    have hours : isDigit x = true := by
      simpa [isDigit, Char.le_def, UInt32.le_iff_toNat_le] using hdigit
    simp [isWord, hascii, hours]

theorem isWord_of_mem_counterType (n : Nat) : ∀ x ∈ FieldType.counterType n, isWord x = true := by
  rw [FieldType.counterType]
  split
  · decide
  · split <;> decide

/-- A sequence that is found has a receiver before its name. -/
theorem names_of_resolve? {s : Scope} (hcounted : Counted s.context) (hlocals : s.locals = [])
    {place : SequencePlace}
    (hwell : place.WellNamed) {f : SequenceField} (h : s.resolve? place = some f) :
    Names place.receiver f := by
  rw [Scope.resolve?] at h
  split at h
  · rw [hlocals] at h
    cases h
  · rename_i hne
    have hne : place.receiver ≠ [] := by simpa using hne
    obtain ⟨owner, -, hf⟩ := Option.bind_eq_some_iff.1 h
    have hname := find?_some hf
    have hmem := mem_of_find?_eq_some hf
    have hname : f.name = place.name := by
      simp only [Bool.and_eq_true, beq_iff_eq] at hname
      exact hname.2
    refine ⟨hwell.receiver_head hne, hwell.receiver, hname ▸ hwell.name, isWord_of_mem_text _, ?_⟩
    rw [hcounted f hmem]
    exact isWord_of_mem_counterType _

/-! ## The shell of an operation -/

/-- What an operation writes before and after its arguments; `named` says that these are one
name. -/
def SequenceOp.shell (op : SequenceOp) (receiver : Text) (s : SequenceField) (named : Bool) :
    Text × Text :=
  let target := receiver ++ s.name
  let length := receiver ++ s.lengthName
  let live := length ++ " as usize".toList
  let capacity := s.capacity.text
  match op with
  | .push =>
    (Text.concat
      ["\x7b ", guardWith (Text.concat [live, " >= ", capacity]) invalidArgument, " ", target, "[",
       live, "] = "],
     Text.concat ["; ", length, " += 1;", " \x7d"])
  | .len => (Text.concat ["(", length, " as "], "usize)")
  | .isEmpty => (Text.concat ["(", length, " == "], "0)")
  | .clear => (Text.concat [length, " = "], "0")
  | .remove =>
    (Text.concat ["\x7b ", "let remove_at = ", if named then [] else "("],
     Text.concat
      [if named then " as usize" else ") as usize", "; ",
       guardWith (Text.concat ["remove_at >= ", live]) invalidArgument,
       " let removed = ", target, "[remove_at]; for shift_at in remove_at..", live, " - 1 ",
       braces (Text.concat [target, "[shift_at] = ", target, "[shift_at + 1];"]), " ", length,
       " -= 1; removed", " \x7d"])
  | .extend =>
    (Text.concat ["\x7b ", "let extend_src = "],
     Text.concat
      ["; let extend_at = ", live, "; ",
       guardWith (Text.concat ["extend_at + extend_src.len() > ", capacity]) invalidArgument, " ",
       target, "[extend_at..extend_at + extend_src.len()].copy_from_slice(extend_src); ", length,
       " += extend_src.len() as ", s.counterType, ";", " \x7d"])
  | .view method => (Text.concat [target, "[..", live, "].", method.toList, "("], ")")

/-- A lowered operation is its arguments in the shell. -/
theorem render_eq_shell (haccepts : op.accepts args = true) (htrim : Text.trim args = args)
    (receiver : Text) (s : SequenceField) :
    op.render receiver s args = (op.shell receiver s (word.readAll? args).isSome).1 ++ args ++
      (op.shell receiver s (word.readAll? args).isSome).2 := by
  cases op with
  | push | extend | view =>
    simp only [SequenceOp.render, SequenceOp.shell, Text.concat, braces, flatten_cons,
      flatten_nil, append_assoc, append_nil]
  | len | isEmpty | clear =>
    obtain rfl : args = [] := by simpa [SequenceOp.accepts] using haccepts
    simp [SequenceOp.render, SequenceOp.shell, Text.concat]
  | remove =>
    cases h : (word.readAll? args).isSome <;>
      simp only [SequenceOp.render, SequenceOp.shell, Text.concat, braces, asIndex, htrim, h,
        flatten_cons, flatten_nil, append_assoc, append_nil, if_true,
        Bool.false_eq_true, if_false]

/-- The methods that are called on the elements in use have names. -/
theorem isWord_of_known (h : op ∈ SequenceOp.table.map (·.2)) {method : String}
    (hop : op = .view method) : ∀ x ∈ method.toList, isWord x = true := by
  subst hop
  have hall : ∀ op ∈ SequenceOp.table.map (·.2), ∀ method : String, op = .view method →
      ∀ x ∈ method.toList, isWord x = true := by
    simp only [SequenceOp.table, map_cons, map_nil, mem_cons, not_mem_nil, or_false]
    rintro op (rfl | rfl | rfl | rfl | rfl | rfl | rfl | rfl | rfl | rfl | rfl | rfl) method h <;>
      cases h <;> decide
  exact hall _ h method rfl

theorem getLast?_concat {parts : List Text} {l : Text} (hparts : parts.getLast? = some l)
    (hl : l.getLast? = some x) : (Text.concat parts).getLast? = some x := by
  obtain ⟨parts, rfl⟩ := getLast?_eq_some_iff.1 hparts
  rw [Text.concat, flatten_append, flatten_singleton, getLast?_append, hl, Option.some_or]

theorem shell_head_last (op : SequenceOp) (receiver : Text) (s : SequenceField) (named : Bool) :
    ∃ x, (op.shell receiver s named).1.getLast? = some x ∧ (x = ' ' ∨ x = '(') := by
  cases op with
  | push => exact ⟨' ', getLast?_concat rfl rfl, .inl rfl⟩
  | len | isEmpty | clear => exact ⟨' ', getLast?_concat rfl rfl, .inl rfl⟩
  | remove =>
    cases named with
    | true => exact ⟨' ', rfl, .inl rfl⟩
    | false => exact ⟨'(', getLast?_concat rfl rfl, .inr rfl⟩
  | extend => exact ⟨' ', getLast?_concat rfl rfl, .inl rfl⟩
  | view method => exact ⟨'(', getLast?_concat rfl rfl, .inr rfl⟩

theorem shell_tail_last (op : SequenceOp) (receiver : Text) (s : SequenceField) (named : Bool) :
    ∃ x, (op.shell receiver s named).2.getLast? = some x ∧
    (x = '\x7d' ∨ x = ')' ∨ op = .clear ∧ x = '0') := by
  cases op with
  | push | remove | extend => exact ⟨'\x7d', getLast?_concat rfl rfl, .inl rfl⟩
  | len | isEmpty => exact ⟨')', rfl, .inr (.inl rfl)⟩
  | clear => exact ⟨'0', rfl, .inr (.inr ⟨rfl, rfl⟩)⟩
  | view method => exact ⟨')', rfl, .inr (.inl rfl)⟩

theorem all_isPlain_of_word (h : ∀ x ∈ t, isWord x = true) : t.all isPlain = true :=
  all_eq_true.2 fun x hx => isPlain_of_isWord (h x hx)

theorem Spelled.all_plain (h : Spelled receiver s) :
    receiver.all isPlain = true ∧ s.name.all isPlain = true ∧ s.lengthName.all isPlain = true := by
  have hname := all_isPlain_of_word h.name
  refine ⟨all_eq_true.2 fun x hx => isPlain_of_dottedText (.inl (h.receiver x hx)), hname, ?_⟩
  rw [SequenceField.lengthName, counterName, all_append, hname]
  decide

theorem Spelled.shell_all_plain (h : Spelled receiver s) (hop : op ∈ SequenceOp.table.map (·.2))
    (named : Bool) :
    (op.shell receiver s named).1.all isPlain = true ∧ (op.shell receiver s named).2.all isPlain =
    true := by
  obtain ⟨hreceiver, hname, hlength⟩ := h.all_plain
  have hcapacity : s.capacity.text.all isPlain = true := all_isPlain_of_word h.capacity
  have htype : s.counterType.all isPlain = true := all_isPlain_of_word h.counterType
  have herror : invalidArgument.all isPlain = true := by decide +kernel
  cases op with
  | push | len | isEmpty | clear | extend =>
    simp only [SequenceOp.shell, Text.concat, guardWith, braces,
      flatten_cons, flatten_nil, all_append, hreceiver, hname, hlength, hcapacity,
      htype, herror, Bool.and_true, Bool.true_and, Bool.and_eq_true]
    decide +kernel
  | remove =>
    cases named <;>
      simp only [SequenceOp.shell, Text.concat, guardWith, braces,
        flatten_cons, flatten_nil, all_append, hreceiver, hname, hlength, herror,
        Bool.and_true, Bool.true_and, Bool.and_eq_true] <;>
      decide +kernel
  | view method =>
    have hmethod : method.toList.all isPlain = true := all_isPlain_of_word (isWord_of_known hop rfl)
    simp only [SequenceOp.shell, Text.concat, flatten_cons, flatten_nil,
      all_append, hreceiver, hname, hlength, hmethod, Bool.and_true, Bool.true_and,
      Bool.and_eq_true]
    decide +kernel

theorem Spelled.shell (h : Spelled receiver s) (hop : op ∈ SequenceOp.table.map (·.2))
    (named : Bool) :
    Shell (op.shell receiver s named).1 (op.shell receiver s named).2 := by
  obtain ⟨hhead, htail⟩ := h.shell_all_plain hop named
  obtain ⟨x, hx, hxs⟩ := shell_head_last op receiver s named
  obtain ⟨y, hy, hys⟩ := shell_tail_last op receiver s named
  generalize op.shell receiver s named = shell at *
  constructor
  · rintro hnil
    simp [hnil] at hx
  · rintro hnil
    simp [hnil] at hy
  · refine ⟨all_eq_true.1 hhead, fun z hz => ?_⟩
    obtain rfl : x = z := Option.some.inj (hx.symm.trans hz)
    obtain rfl | rfl := hxs <;> decide
  · refine ⟨all_eq_true.1 htail, fun z hz => ?_⟩
    obtain rfl : y = z := Option.some.inj (hy.symm.trans hz)
    obtain rfl | rfl | ⟨-, rfl⟩ := hys <;> decide
  · rw [hx]
    obtain rfl | rfl := hxs <;> decide

theorem startsAfresh_dotted (hprev : prev.any isWord = false) (hhead : t.head?.any isWord = true)
    (ht : ∀ x ∈ t, DottedChar x) (hk : isMark k = true) (rest : Text) :
    StartsAfresh prev (t ++ k :: rest) := by
  have hne : t.takeWhile isWord ≠ [] := by
    cases t with
    | nil => simp at hhead
    | cons x t =>
      have hx : isWord x = true := by simpa using hhead
      simp [hx]
  have hwords : ∀ x ∈ t.takeWhile isWord, isWord x = true ∨ x = '\x7b' :=
    fun x hx => .inl (mem_takeWhile_imp hx)
  rw [← takeWhile_append_dropWhile (p := isWord) (l := t), append_assoc]
  cases hdrop : t.dropWhile isWord with
  | nil => exact .name hne hprev hwords hk
  | cons y u =>
    have hy : isWord y = false := by
      simpa [hdrop] using head?_dropWhile_not isWord t
    have hmem : y ∈ t := (dropWhile_suffix isWord).subset (hdrop ▸ mem_cons_self)
    obtain rfl : y = '.' := (ht y hmem).resolve_left (by simp [hy])
    exact .name hne hprev hwords (by decide)

/-- What an operation writes starts afresh where no name ends. -/
theorem startsAfresh_head (hhead : (receiver ++ s.name).head?.any isWord = true)
    (hchars : ∀ x ∈ receiver ++ s.name, DottedChar x) (hprev : prev.any isWord = false)
    (op : SequenceOp)
    (named : Bool) (rest : Text) : StartsAfresh prev ((op.shell receiver s named).1 ++ rest) := by
  have hbrace : ∀ t : Text, StartsAfresh prev ("\x7b ".toList ++ t) := fun t =>
    .name (h := ['\x7b']) (cons_ne_nil _ _) hprev (by decide) (by decide)
  obtain ⟨x, target, htarget⟩ : ∃ x target, receiver ++ s.name = x :: target :=
    exists_cons_of_ne_nil fun hnil => by simp [hnil] at hhead
  have hx : isWord x = true := by simpa [htarget] using hhead
  have hsplit : ∀ t : Text, receiver ++ (s.name ++ t) = x :: target ++ t :=
    fun t => by rw [← append_assoc, htarget]
  have hparen : ∀ t : Text, StartsAfresh prev ("(".toList ++ (receiver ++ (s.name ++ t))) :=
    fun t => by
    rw [hsplit]
    refine .mark (by decide) ?_
    rintro ⟨rfl⟩
    exact absurd hx (by decide)
  have hdotted : ∀ {u : Text}, (∀ x ∈ u, isWord x = true) → ∀ {k : Char}, isMark k = true →
      ∀ t : Text, StartsAfresh prev (receiver ++ (s.name ++ (u ++ k :: t))) := by
    intro u hu k hk t
    rw [hsplit, ← append_assoc]
    exact startsAfresh_dotted hprev (by simpa using hx)
      (forall_mem_append.2 ⟨htarget ▸ hchars, fun x hx => .inl (hu x hx)⟩) hk t
  cases op with
  | push | remove | extend =>
    simp only [SequenceOp.shell, Text.concat, flatten_cons, append_assoc]
    exact hbrace _
  | len | isEmpty =>
    simp only [SequenceOp.shell, SequenceField.lengthName, counterName, Text.concat, flatten_cons,
      append_assoc]
    exact hparen _
  | clear =>
    simp only [SequenceOp.shell, SequenceField.lengthName, counterName, Text.concat, flatten_cons,
      append_assoc]
    exact hdotted (u := "_len".toList) (by decide) (by decide : isMark ' ' = true) _
  | view method =>
    simp only [SequenceOp.shell, Text.concat, flatten_cons, append_assoc]
    exact hdotted (u := []) (by simp) (by decide : isMark '[' = true) _

/-- What an operation writes starts afresh where no name ends. -/
theorem Names.startsAfresh_head (h : Names receiver s) (hprev : prev.any isWord = false)
    (op : SequenceOp)
    (named : Bool) (rest : Text) : StartsAfresh prev ((op.shell receiver s named).1 ++ rest) := by
  refine Lowering.startsAfresh_head ?_ (forall_mem_append.2 ⟨h.receiver,
    fun x hx => .inl (h.name x hx)⟩) hprev op named rest
  have hhead := h.receiver_head
  cases receiver with
  | nil => cases hhead
  | cons x receiver => exact hhead

theorem startsAfresh_mark (ht : t.take 2 = [k, x]) (hk : isMark k = true) (hx : x ≠ '\'')
    (rest : Text) : StartsAfresh prev (t ++ rest) := by
  match t, ht with
  | _ :: _ :: t, rfl => exact .mark hk (by simpa using hx)

/-- What an operation writes after its arguments starts afresh, unless it is one bracket before a
quote. -/
theorem startsAfresh_tail (haccepts : op.accepts args = true) (hargs : args ≠ []) (receiver : Text)
    (s : SequenceField) (prev : Option Char) (named : Bool) {rest : Text}
    (hrest : rest.head? ≠ some '\'') :
    StartsAfresh prev ((op.shell receiver s named).2 ++ rest) := by
  cases op with
  | len | isEmpty | clear => simp [SequenceOp.accepts, hargs] at haccepts
  | push | extend =>
    simp only [SequenceOp.shell, Text.concat, flatten_cons, append_assoc]
    exact startsAfresh_mark rfl (by decide) (by decide) _
  | remove =>
    simp only [SequenceOp.shell, Text.concat, flatten_cons, append_assoc]
    cases named with
    | true => exact startsAfresh_mark rfl (by decide) (by decide) _
    | false => exact startsAfresh_mark rfl (by decide) (by decide) _
  | view method => exact .mark (by decide) hrest

end AnchorLowering.Lowering
