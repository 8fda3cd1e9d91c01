import MathEdit.Proofs.Command.Split

/-! # What the command line changes

The only file that a command overwrites is the one that it splits in place.

* **`keeps_fulfil`**: every other request leaves all files as they are.
* **`World.writeRows_files`**: what a split in place may change.
* **`World.execute_files`**: what a command line may change. -/

namespace MathEdit.Command

open World (Reading)

namespace World

/-- The files are the same in two worlds. -/
def SameFiles (w v : World) : Prop := v.files = w.files

instance : Std.Refl SameFiles := ⟨fun _ => rfl⟩

instance : IsTrans World SameFiles := ⟨fun _ _ _ h h' => h'.trans h⟩

/-- Reading changes no file. -/
theorem Reading.sameFiles {w v : World} (h : Reading w v) : SameFiles w v := h.files_eq

end World

open World (SameFiles)

/-! ## Requests that write no file -/

/-- Printing changes no file. -/
theorem keeps_print (t : Text) : Keeps SameFiles (Host.print t) := fun _ => rfl

/-- Nor does printing to the error stream. -/
theorem keeps_printError (t : Text) : Keeps SameFiles (Host.printError t) := fun _ => rfl

/-- Locating a region prints it, at most. -/
theorem keeps_locate (s : Session) (t : Text) (cursor : Option Nat) :
    Keeps SameFiles (locate s t cursor) := by
  cases cursor with
  | none => exact .throw _
  | some offset => exact keeps_print _

/-- So do the stops of a document. -/
theorem keeps_jumps (s : Session) (t : Text) (cursor : Option Nat) :
    Keeps SameFiles (jumps s t cursor) := by
  cases cursor <;> exact keeps_print _

/-- A split that prints, or that finds nothing to split. -/
theorem keeps_deliver {path t : Text} {inPlace : Bool} {rows : Option Text}
    (h : inPlace = false ∨ rows = none) : Keeps SameFiles (deliver path t inPlace rows) := by
  rcases rows with _ | rows
  · refine (keeps_printError _).bind fun _ => ?_
    cases inPlace with
    | true => exact .pure _
    | false => exact keeps_print t
  · obtain rfl : inPlace = false := by simpa using h
    exact keeps_print _

/-- **A request** that is no split in place leaves all files as they are. -/
theorem keeps_fulfil {request : Request}
    (h : ∀ path cursor, request.action ≠ .split path cursor true) :
    Keeps SameFiles (fulfil request) := by
  have hread {α : Type} {x : ExceptT Failure (StateM World) α} (hx : Keeps Reading x) :
      Keeps SameFiles x :=
    hx.mono fun _ _ => World.Reading.sameFiles
  -- every action reads first, and only a split in place does more than print
  obtain ⟨config, verbose, action⟩ := request
  refine (hread (keeps_configOf config)).bind fun c => ?_
  cases action with
  | locate path cursor =>
      exact (hread (keeps_readDocument path)).bind fun t => (Keeps.ofExcept _).bind fun _ =>
        keeps_locate _ t _
  | jumps path cursor =>
      exact (hread (keeps_readDocument path)).bind fun t => (Keeps.ofExcept _).bind fun _ =>
        keeps_jumps _ t _
  | split path cursor inPlace =>
      have hprint : inPlace = false := by
        cases inPlace with
        | true => exact absurd rfl (h path cursor)
        | false => rfl
      exact (hread (keeps_readDocument path)).bind fun t => (Keeps.ofExcept _).bind fun _ =>
        keeps_deliver (.inl hprint)
  | brace line stop => exact keeps_print _
  | tokens path => exact (hread (keeps_readDocument path)).bind fun _ => keeps_print _
  | refs path => exact (hread (keeps_readDocument path)).bind fun _ => keeps_print _

namespace World

variable {w : World} {arguments : List Text} {config : Option Text} {path : Text}
  {cursor : Option Position}

/-! ## Splits in place -/

/-- A refused write changes nothing, and any other write only what stands where the path leads. -/
theorem write_files (w : World) (path content : Text) :
    ((w.write path content).1 ≠ .ok () → (w.write path content).2.files = w.files) ∧
      ∀ location, w.target path ≠ .location location →
        (w.write path content).2.files location = w.files location := by
  rw [write]
  cases htarget : w.target path with
  | standardInput => exact ⟨fun _ => rfl, fun _ _ => rfl⟩
  | location name =>
      dsimp only
      cases w.refusal? name with
      | some obstacle => exact ⟨fun _ => rfl, fun _ _ => rfl⟩
      | none =>
          refine ⟨fun h => absurd rfl h, fun location h => if_neg ?_⟩
          rintro rfl
          exact h rfl

/-- **A split in place** changes no file unless it succeeds and has rows for a path that is not
standard input. Then it changes the file at the path. -/
theorem writeRows_files (w : World) (path : Text) (r : Except Failure (Text × Option Text)) :
    ((w.writeRows path r).1 ≠ 0 → (w.writeRows path r).2.files = w.files) ∧
    (path = ['-'] → (w.writeRows path r).2.files = w.files) ∧
    (∀ t, r = .ok (t, none) → (w.writeRows path r).2.files = w.files) ∧
    ∀ location, w.target path ≠ .location location →
      (w.writeRows path r).2.files location = w.files location := by
  rcases r with failure | ⟨t, _ | rows⟩
  · exact ⟨fun _ => rfl, fun _ => rfl, fun _ _ => rfl, fun _ _ => rfl⟩
  · exact ⟨fun _ => rfl, fun _ => rfl, fun _ _ => rfl, fun _ _ => rfl⟩
  by_cases hpath : isStdin path = true
  · rw [writeRows, if_pos hpath]
    exact ⟨fun _ => rfl, fun _ => rfl, fun _ _ => rfl, fun _ _ => rfl⟩
  -- what is left is a write that the system is asked for
  obtain ⟨hrefused, hother⟩ := write_files w path rows
  rw [writeRows, if_neg hpath]
  have hdash : path ≠ ['-'] := by simpa [isStdin] using hpath
  generalize w.write path rows = result at hrefused hother ⊢
  rcases result with ⟨reason | _, v⟩
  · exact ⟨fun _ => hrefused (by simp), fun h => absurd h hdash, fun _ h => (by cases h), hother⟩
  · exact ⟨fun h => absurd rfl h, fun h => absurd h hdash, fun _ h => (by cases h), hother⟩

/-- **Only the file to be split in place changes.** No file changes if the status is not zero, if
the command is no split in place, if there is nothing to split, or if standard input is to be split.
Otherwise no file changes but the one that the path leads to. -/
theorem execute_files (arguments : List Text) (w : World) :
    let status := (w.execute arguments).1
    let files := (w.execute arguments).2.files
    (status ≠ 0 → files = w.files) ∧
    ((∀ config verbose path cursor,
        Request.ofArguments? arguments ≠ some ⟨config, verbose, .split path cursor true⟩) →
      files = w.files) ∧
    ∀ config verbose path cursor,
      Request.ofArguments? arguments = some ⟨config, verbose, .split path cursor true⟩ →
        (path = ['-'] → files = w.files) ∧
        (∀ t, (w.run (rowsOf config path cursor)).1 = .ok (t, none) → files = w.files) ∧
        ∀ location, w.target path ≠ .location location → files location = w.files location := by
  intro status files
  by_cases hinPlace : ∃ config verbose path cursor,
      Request.ofArguments? arguments = some ⟨config, verbose, .split path cursor true⟩
  · obtain ⟨config, verbose, path, cursor, hrequest⟩ := hinPlace
    have hreading := keeps_rowsOf config path cursor w
    obtain ⟨hfailed, hstdin, hnone, hother⟩ := writeRows_files
      (w.run (rowsOf config path cursor)).2 path (w.run (rowsOf config path cursor)).1
    rw [← execute_split_inPlace hrequest, hreading.files_eq] at hfailed hstdin hnone hother
    rw [hreading.target_eq] at hother
    refine ⟨hfailed, fun h => absurd hrequest (h config verbose path cursor), ?_⟩
    intro config' verbose' path' cursor' hrequest'
    obtain ⟨rfl, -, rfl, rfl⟩ :
        config = config' ∧ verbose = verbose' ∧ path = path' ∧ cursor = cursor' := by
      rw [hrequest] at hrequest'
      simpa using hrequest'
    exact ⟨hstdin, hnone, hother⟩
  · have hfiles : files = w.files := by
      cases hrequest : Request.ofArguments? arguments with
      | none =>
          dsimp only [files]
          rw [execute_of_none hrequest]
          rfl
      | some request =>
          have hkept : SameFiles w (w.run (fulfil request)).2 :=
            keeps_fulfil (fun path cursor h =>
              hinPlace ⟨request.config, request.verbose, path, cursor, by rw [hrequest, ← h]⟩) w
          dsimp only [files]
          rw [execute_eq hrequest]
          generalize w.run (fulfil request) = result at hkept ⊢
          -- the status tells a failure from a success, and neither changes a file
          rcases result with ⟨failure | _, v⟩ <;> exact hkept
    exact ⟨fun _ => hfiles, fun _ => hfiles,
      fun config verbose path cursor h => absurd ⟨config, verbose, path, cursor, h⟩ hinPlace⟩

/-- A file that is split in place among others, and standard input that cannot be. -/
theorem execute_files_in_place :
    let w := ofFile "a.tex".toList "a = b = c".toList
    let split := w.execute ["split".toList, "--in-place".toList, "a.tex".toList]
    let refused := execute { w with stdin := .text "a = b = c".toList }
      ["split".toList, "--in-place".toList, ['-']]
    split.2.files "a.tex".toList ≠ w.files "a.tex".toList ∧
      (∀ location, location ≠ "a.tex".toList → split.2.files location = w.files location) ∧
      refused.1 = 1 ∧ refused.2.files = w.files := by
  intro w split refused
  have hsplit : Request.ofArguments? ["split".toList, "--in-place".toList, "a.tex".toList] =
      some ⟨none, false, .split "a.tex".toList none true⟩ := by decide
  have hrefused : refused.1 = 1 := by decide +kernel
  have hfailed : refused.1 ≠ 0 := by rw [hrefused]; decide
  refine ⟨by decide +kernel, fun location h => ?_, hrefused, ?_⟩
  · refine ((execute_files _ w).2.2 none false "a.tex".toList none hsplit).2.2 location
      fun heq => h ?_
    exact (Target.location.inj heq).symm
  · exact (execute_files _ _).1 hfailed

end World

end MathEdit.Command
