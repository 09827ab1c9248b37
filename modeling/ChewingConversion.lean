import ChewingConversion.Basic
import ChewingConversion.Score
import ChewingConversion.BestPhrase
import ChewingConversion.Grid
import ChewingConversion.BestPath
import ChewingConversion.Contains
import ChewingConversion.Trim
import ChewingConversion.AllPaths
import ChewingConversion.ConvertNext
import ChewingConversion.Constraints
import ChewingConversion.EmptyRange
import ChewingConversion.CheckedScore
import ChewingConversion.Boundaries
import ChewingConversion.BestPathOrder
import ChewingConversion.CheckedSearch
import ChewingConversion.CheckedPath
import ChewingConversion.CheckedNext
import ChewingConversion.GridLocality
import ChewingConversion.MemoTable
import ChewingConversion.Alternatives
import ChewingConversion.DictionaryOrder
