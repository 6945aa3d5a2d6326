import Nica.LinkedCells
import Nica.HeapParts
import Nica.Fuel
import Nica.Buckets
import Nica.Blocks
import Nica.Footprint
import Nica.Hashmap
import Nica.HashmapLayout
import Nica.HashmapLookup
import Nica.HashmapInsert
import Nica.HashmapFree
import Nica.HashmapResize
import Nica.HashmapFuel
import Nica.HashmapPut
import Nica.HashmapIter
import Nica.HashmapFailure
import Nica.HashmapFill
import Nica.HashmapOperations
import Nica.HashmapRuns
import Nica.HashmapLoops
import Nica.HashmapZero
import Nica.HashmapEntries
import Nica.HashmapOwnership
import Nica.HashmapOrder
import Nica.HashmapLoad
import Nica.HashmapFootprint
import Nica.Dictionary
import Nica.HashmapOutcome
import Nica.HashmapAnswers
import Nica.HashmapSystem
import Nica.NcList
import Nica.NcListRuns
import Nica.NcListFree
import Nica.NcListLocal
import Nica.NcListSystem
import Nica.GreedyRealloc
import Nica.NcArray
import Nica.NcArrayRuns
import Nica.Trimming
import Nica.CString
import Nica.NcString
import Nica.NcStringStrip
import Nica.NcStringTests
import Nica.IniStrip
import Nica.IniFile
import Nica.IniGrammar
import Nica.IniRuns
import Nica.IniParse
import Nica.IniPadding
import Nica.IniBounds
import Nica.IniMerge
import Nica.IniDocument
import Nica.IniNormal
import Nica.IniReport
import Nica.IniOwnership
import Nica.CopyFile
import Nica.CopyPadding
import Nica.PathName
import Nica.CasePath
import Nica.FileTree
import Nica.MkdirP
import Nica.FileRemoval
import Nica.FileOpening
import Nica.FileWalk
import Nica.PlainPath
import Nica.RmRf
import Nica.FileCalls
import Nica.FileParent
import Nica.CopyTree
import Nica.CopyOutcome
import Nica.FileRuns
