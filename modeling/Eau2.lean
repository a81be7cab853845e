import Eau2.Application.WordCountRun
import Eau2.Dataframe.Apart
import Eau2.Dataframe.BlockKeys
import Eau2.Dataframe.Cached
import Eau2.Dataframe.Position
import Eau2.Dataframe.SchemaEquals
import Eau2.Filereader.Words
import Eau2.Linus.Degrees
import Eau2.Network.Pseudo.Requests
import Eau2.Network.Pseudo.Teardown
import Eau2.Network.Pseudo.Waiters
import Eau2.Network.Boot
import Eau2.Application.Demo
import Eau2.Network.DirectoryAlgebra
import Eau2.Network.Shared
import Eau2.Network.Sockets.Deadlock
import Eau2.Sorer.Ingest
import Eau2.Sorer.StringField
import Eau2.Base.Heap
import Eau2.Serial.Items
import Eau2.Store.KeyBuffCells
import Eau2.Store.LocalPut
import Eau2.Utils.ArrayCells
import Eau2.Utils.MapEquals
import Eau2.Utils.QueueCells
import Eau2.Utils.StrBuffCalls
import Eau2.Utils.StringKeys
import Eau2.Linus.Progress
