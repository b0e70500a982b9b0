import AccessTree.Role

/-!
The roles that user interface toolkits give to their widgets, by name. Many of them have no role
of their own here: a name outside the table is that of an unknown object.
-/

namespace AccessTree.Role

/-- Widget roles and the role that each is shown as. Rows of a table are not row headers and
have no entry. -/
def widgets : List (String × Role) :=
  [("Window", .frame), ("Dialog", .dialog), ("Button", .pushButton), ("CheckBox", .checkBox),
    ("RadioButton", .radioButton), ("TextInput", .entry), ("MultilineTextInput", .text),
    ("Label", .label), ("Link", .link), ("Image", .image), ("ProgressIndicator", .progressBar),
    ("Slider", .slider), ("SpinButton", .spinButton), ("ComboBox", .comboBox), ("List", .list),
    ("ListItem", .listItem), ("Tree", .tree), ("TreeItem", .listItem), ("Table", .table),
    ("Cell", .tableCell), ("ColumnHeader", .columnHeader), ("RowHeader", .rowHeader),
    ("MenuBar", .menuBar), ("Menu", .menu), ("MenuItem", .menuItem),
    ("MenuItemCheckBox", .checkMenuItem), ("MenuItemRadio", .radioMenuItem),
    ("Toolbar", .toolBar), ("Status", .statusBar), ("TabList", .pageTabList), ("Tab", .pageTab),
    ("TabPanel", .panel), ("ScrollBar", .scrollBar), ("ScrollView", .scrollPane),
    ("Splitter", .splitPane), ("Group", .panel), ("Tooltip", .toolTip), ("Grid", .table),
    ("ColorWell", .colorChooser), ("Alert", .alert), ("GenericContainer", .panel),
    ("Pane", .panel)]

def ofWidget (name : String) : Role := (widgets.lookup name).getD .unknown

end AccessTree.Role
