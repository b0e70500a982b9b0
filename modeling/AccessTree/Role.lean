/-!
Roles: what kind of thing an accessible object is. A role travels as its code, the position in
the order of declaration, and is shown by its name.
-/

namespace AccessTree

inductive Role where
  | invalid | acceleratorLabel | alert | animation | arrow | calendar | canvas | checkBox
  | checkMenuItem | colorChooser | columnHeader | comboBox | dateEditor | desktopIcon
  | desktopFrame | dial | dialog | directoryPane | drawingArea | fileChooser | filler
  | focusTraversable | fontChooser | frame | glassPane | htmlContainer | icon | image
  | internalFrame | label | layeredPane | list | listItem | menu | menuBar | menuItem
  | optionPane | pageTab | pageTabList | panel | passwordText | popupMenu | progressBar
  | pushButton | radioButton | radioMenuItem | rootPane | rowHeader | scrollBar | scrollPane
  | separator | slider | spinButton | splitPane | statusBar | table | tableCell
  | tableColumnHeader | tableRowHeader | tearoffMenuItem | terminal | text | toggleButton
  | toolBar | toolTip | tree | treeTable | unknown | viewport | window | extended | header
  | footer | paragraph | ruler | application | autocomplete | editbar | embedded | entry
  | chart | caption | documentFrame | heading | page | pageSection | redundantObject | form
  | link | inputMethodWindow
  deriving DecidableEq, Repr, Inhabited

namespace Role

/-- Every role, in the order of the codes. -/
def all : List Role :=
  [.invalid, .acceleratorLabel, .alert, .animation, .arrow, .calendar, .canvas, .checkBox,
    .checkMenuItem, .colorChooser, .columnHeader, .comboBox, .dateEditor, .desktopIcon,
    .desktopFrame, .dial, .dialog, .directoryPane, .drawingArea, .fileChooser, .filler,
    .focusTraversable, .fontChooser, .frame, .glassPane, .htmlContainer, .icon, .image,
    .internalFrame, .label, .layeredPane, .list, .listItem, .menu, .menuBar, .menuItem,
    .optionPane, .pageTab, .pageTabList, .panel, .passwordText, .popupMenu, .progressBar,
    .pushButton, .radioButton, .radioMenuItem, .rootPane, .rowHeader, .scrollBar, .scrollPane,
    .separator, .slider, .spinButton, .splitPane, .statusBar, .table, .tableCell,
    .tableColumnHeader, .tableRowHeader, .tearoffMenuItem, .terminal, .text, .toggleButton,
    .toolBar, .toolTip, .tree, .treeTable, .unknown, .viewport, .window, .extended, .header,
    .footer, .paragraph, .ruler, .application, .autocomplete, .editbar, .embedded, .entry, .chart,
    .caption, .documentFrame, .heading, .page, .pageSection, .redundantObject, .form, .link,
    .inputMethodWindow]

def code (r : Role) : Nat := r.ctorIdx

def ofCode? (n : Nat) : Option Role := all[n]?

def name : Role → String
  | .invalid => "invalid"
  | .acceleratorLabel => "accelerator label"
  | .alert => "alert"
  | .animation => "animation"
  | .arrow => "arrow"
  | .calendar => "calendar"
  | .canvas => "canvas"
  | .checkBox => "check box"
  | .checkMenuItem => "check menu item"
  | .colorChooser => "color chooser"
  | .columnHeader => "column header"
  | .comboBox => "combo box"
  | .dateEditor => "date editor"
  | .desktopIcon => "desktop icon"
  | .desktopFrame => "desktop frame"
  | .dial => "dial"
  | .dialog => "dialog"
  | .directoryPane => "directory pane"
  | .drawingArea => "drawing area"
  | .fileChooser => "file chooser"
  | .filler => "filler"
  | .focusTraversable => "focus traversable"
  | .fontChooser => "font chooser"
  | .frame => "frame"
  | .glassPane => "glass pane"
  | .htmlContainer => "html container"
  | .icon => "icon"
  | .image => "image"
  | .internalFrame => "internal frame"
  | .label => "label"
  | .layeredPane => "layered pane"
  | .list => "list"
  | .listItem => "list item"
  | .menu => "menu"
  | .menuBar => "menu bar"
  | .menuItem => "menu item"
  | .optionPane => "option pane"
  | .pageTab => "page tab"
  | .pageTabList => "page tab list"
  | .panel => "panel"
  | .passwordText => "password text"
  | .popupMenu => "popup menu"
  | .progressBar => "progress bar"
  | .pushButton => "push button"
  | .radioButton => "radio button"
  | .radioMenuItem => "radio menu item"
  | .rootPane => "root pane"
  | .rowHeader => "row header"
  | .scrollBar => "scroll bar"
  | .scrollPane => "scroll pane"
  | .separator => "separator"
  | .slider => "slider"
  | .spinButton => "spin button"
  | .splitPane => "split pane"
  | .statusBar => "status bar"
  | .table => "table"
  | .tableCell => "table cell"
  | .tableColumnHeader => "table column header"
  | .tableRowHeader => "table row header"
  | .tearoffMenuItem => "tearoff menu item"
  | .terminal => "terminal"
  | .text => "text"
  | .toggleButton => "toggle button"
  | .toolBar => "tool bar"
  | .toolTip => "tool tip"
  | .tree => "tree"
  | .treeTable => "tree table"
  | .unknown => "unknown"
  | .viewport => "viewport"
  | .window => "window"
  | .extended => "extended"
  | .header => "header"
  | .footer => "footer"
  | .paragraph => "paragraph"
  | .ruler => "ruler"
  | .application => "application"
  | .autocomplete => "autocomplete"
  | .editbar => "editbar"
  | .embedded => "embedded"
  | .entry => "entry"
  | .chart => "chart"
  | .caption => "caption"
  | .documentFrame => "document frame"
  | .heading => "heading"
  | .page => "page"
  | .pageSection => "section"
  | .redundantObject => "redundant object"
  | .form => "form"
  | .link => "link"
  | .inputMethodWindow => "input method window"

@[simp] theorem ofCode?_code (r : Role) : ofCode? r.code = some r := by cases r <;> rfl

theorem code_lt (r : Role) : r.code < 90 := by cases r <;> decide

theorem ofCode?_eq_none_iff {n : Nat} : ofCode? n = none ↔ 90 ≤ n := by
  simp [ofCode?, all]

theorem ofCode?_eq_some_iff {n : Nat} {r : Role} : ofCode? n = some r ↔ r.code = n := by
  constructor
  · intro h
    have hcodes : all.map code = List.range 90 := rfl
    have hn := congrArg (Option.map code) h
    rw [ofCode?, ← List.getElem?_map, hcodes] at hn
    simpa [eq_comm] using (List.getElem?_eq_some_iff.1 hn).2
  · rintro rfl
    exact ofCode?_code r

end Role

end AccessTree
